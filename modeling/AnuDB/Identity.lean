import AnuDB.Import
import AnuDB.JsonFormat

/-!
# The id in a document, and the id it is stored under

The id of a document is kept three times: it is the key the document is stored under, it is in
the envelope, and it is the member `_id` of the data. Key and envelope agree by construction
(`AnuDB.WellStored`). The data is another matter, because `createDocument` adds `_id` only where
there is none. Data that brings its own is stored as it is, under whatever id the document has;
and an update can give `_id` any value, and is not put right afterwards.

So the two agree exactly as long as no data names another document than the one it is stored
as (`AnuDB.Json.NamesNoOther`, `AnuDB.KeepsIds`). An import keeps to that by itself,
since it takes the id from the data, except where `_id` is empty and another id is generated.
-/

namespace AnuDB

open Effect

variable {text : JsonText} {codec : Codec} {c c' : Collection} {e e' : StorageEngine}

/-! ### The map -/

/-- The data has no `_id`, or that one. -/
def Json.NamesNoOther (j : Json) (id : Bytes) : Prop :=
  ∀ v, j.find? idField = some v → v = .string id

/-- Whatever has been given an `_id` has it. -/
theorem find?_identified {id : Bytes} {data : Json} (h : data.NamesNoOther id)
    (hobject : (identified id data).isObject = true) :
    (identified id data).find? idField = some (.string id) := by
  cases data with
  | null => simp [identified, Json.find?]
  | object members =>
    rw [identified]
    split_ifs with hmember
    · obtain ⟨v, hv⟩ := Option.isSome_iff_exists.mp hmember
      have hfind : (Json.object members).find? idField = some v := hv
      rw [hfind, h v hfind]
    · exact Assoc.lookup_set_self _ _ _
  | _ => cases hobject

/-- **The data of the documents names them.** -/
def DocumentMap.Labelled (m : DocumentMap) : Prop :=
  ∀ id data, m id = some data → data.isObject = true → data.find? idField = some (.string id)

theorem DocumentMap.Labelled.assign {m : DocumentMap} (h : m.Labelled) {id : Bytes} {data : Json}
    (hdata : data.NamesNoOther id) : (m.assign id data).Labelled := by
  intro id' data' hassign hobject
  rw [DocumentMap.assign] at hassign
  by_cases hid : id' = id
  · subst hid
    rw [Function.update_self] at hassign
    obtain rfl := Option.some.inj hassign
    exact find?_identified hdata hobject
  · rw [Function.update_of_ne hid] at hassign
    exact h id' data' hassign hobject

/-! ### What a call has to leave alone -/

/-- **The call names no other document** than the one it stores. -/
def DocumentCall.NamesNoOther (m : DocumentMap) : DocumentCall → Prop
  | .create entropy doc => doc.data_.NamesNoOther (DocumentMap.target entropy doc.id_)
  | .update entropy id ops upsert =>
    ∀ data doc, m.before id upsert = some data → (⟨id, data⟩ : Document).applyUpdate ops = .ok doc →
      doc.data_.NamesNoOther (DocumentMap.target entropy id)
  | .delete _ => True

/-- The same of a call on a collection, where it reports OK. -/
def CollectionCall.NamesNoOther (m : DocumentMap) (label : CollectionCall × Outcome Exn Status) :
    Prop :=
  ∀ call status, label = (.document call, .ret status) → status.ok = true → call.NamesNoOther m

theorem DocumentMap.Labelled.apply {m : DocumentMap} (h : m.Labelled) {call : DocumentCall}
    (hcall : call.NamesNoOther m) : (m.apply (.document call)).Labelled := by
  cases call with
  | create entropy doc => exact h.assign hcall
  | update entropy id ops upsert =>
    rw [DocumentMap.apply]
    rcases hbefore : m.before id upsert with _ | data
    · exact h
    · rcases happ : (⟨id, data⟩ : Document).applyUpdate ops with exn | doc
      · simpa [happ, Except.toOption] using h
      · simp only [Option.bind_some, happ, Except.toOption]
        exact h.assign (hcall data doc hbefore happ)
  | delete id =>
    intro id' data hdelete hobject
    rw [DocumentMap.apply] at hdelete
    by_cases hid : id' = id
    · rw [hid, Function.update_self] at hdelete
      cases hdelete
    · rw [Function.update_of_ne hid] at hdelete
      exact h id' data hdelete hobject

theorem DocumentMap.Labelled.next {m : DocumentMap} (h : m.Labelled)
    {label : CollectionCall × Outcome Exn Status} (hlabel : CollectionCall.NamesNoOther m label) :
    (m.next label).Labelled := by
  obtain ⟨call, outcome⟩ := label
  rw [DocumentMap.next]
  rcases outcome with status | exn | _
  · simp only
    split_ifs with hok
    · cases call with
      | document call => exact h.apply (hlabel call status rfl hok)
      | createIndex index => exact h
      | deleteIndex index => exact h
    · exact h
  · exact h
  · exact h

/-- The create of an item that is imported names no other document. -/
theorem IsImport.namesNoOther {entropies : Stream' Entropy} {item : Json} {call : CollectionCall}
    (h : IsImport entropies item call)
    (hempty : item.find? idField ≠ some (.string [])) (m : DocumentMap)
    (outcome : Outcome Exn Status) : CollectionCall.NamesNoOther m (call, outcome) := by
  obtain ⟨n, docId, rfl, hid⟩ := h
  rintro call status ⟨⟩ -
  change item.NamesNoOther (DocumentMap.target (entropies.get n) docId)
  intro v hv
  have hdocId := hid v hv
  rw [DocumentMap.target, if_neg, hdocId]
  rintro rfl
  exact hempty (hdocId ▸ hv)

/-! ### Runs -/

/-- The documents a collection has, as a map. -/
def StorageEngine.documents (codec : Codec) (c : Collection) (e : StorageEngine) : DocumentMap :=
  fun id => (e.document codec c.name_ id).map Document.data_

/-- **What the store holds is labelled**: the collection stands for its map, and the data of the
documents names them. -/
structure Labelled (codec : Codec) (c : Collection) (e : StorageEngine) : Prop where
  represents : Represents codec c (e.documents codec c) e
  labelled : (e.documents codec c).Labelled

theorem Represents.documents {m : DocumentMap} (h : Represents codec c m e) :
    e.documents codec c = m := by
  funext id
  exact (h.2 id).symm

theorem Represents.labelled {m : DocumentMap} (h : Represents codec c m e) (hm : m.Labelled) :
    Labelled codec c e :=
  ⟨h.documents ▸ h, h.documents ▸ hm⟩

theorem Labelled.step (h : Labelled codec c e) {label : CollectionCall × Outcome Exn Status}
    (hlabel : CollectionCall.NamesNoOther (e.documents codec c) label)
    (hstep : CollectionStep codec c e label e') : Labelled codec c e' :=
  (h.represents.next hstep).labelled (h.labelled.next hlabel)

/-- An import keeps what is stored labelled, if none of its items has an empty `_id`. -/
theorem Labelled.imports (h : Labelled codec c e)
    {history : List (CollectionCall × Outcome Exn Status)} {entropies : Stream' Entropy}
    {items : List Json} (hitems : ∀ item ∈ items, item.find? idField ≠ some (.string []))
    (hcreates : ∀ x ∈ history, ∃ item ∈ items, IsImport entropies item x.1)
    (hrun : History.Run (CollectionStep codec c) e history e') : Labelled codec c e' := by
  induction hrun with
  | nil => exact h
  | @snoc history s s' label hrun hlast ih =>
    obtain ⟨item, hitem, himport⟩ := hcreates label (by simp)
    exact (ih fun x hx => hcreates x (by simp [hx])).step
      (himport.namesNoOther (hitems item hitem) _ _) hlast

theorem Labelled.congr (h : Labelled codec c e)
    (hlookup : ∀ id, e'.lookup c.name_ id = e.lookup c.name_ id) : Labelled codec c e' :=
  (h.represents.congr hlookup).labelled h.labelled

/-- What a program does that stays within another collection is not seen. -/
theorem Labelled.frame (h : Labelled codec c e) {α : Type} {p : Engine α} {fates : Stream' Fate}
    (hp : p.Uses (Call.Within c'.name_)) (hne : c' ≠ c)
    (hindex : ∀ f, c.name_ ≠ indexFamily c'.name_ f) :
    Labelled codec c (p.run ⟨e, fates⟩).2.engine := by
  refine h.congr fun id => ?_
  have huses : p.Uses fun x => ¬x.Touches c.name_ := by
    refine hp.mono fun x hx htouches => ?_
    rcases hx c.name_ htouches with hname | ⟨f, hf⟩
    · exact hne (by cases c; cases c'; exact congrArg Collection.mk hname.symm)
    · exact hindex f hf
  rw [StorageEngine.lookup, StorageEngine.lookup, Engine.contents_run huses]

/-- A family is added with nothing in it. -/
theorem lookup_run_createCollection (name : Bytes) (fates : Stream' Fate) (n id : Bytes) :
    (((Engine.createCollection name).run ⟨e, fates⟩).2.engine).lookup n id = e.lookup n id := by
  rw [Engine.createCollection, Engine.run_call_bind]
  cases (World.mk e fates).fates.head.fault? with
  | none => rfl
  | some fault =>
    simp only [StorageEngine.exec]
    rcases e.createCollection_cases fault name with ⟨hcreate, -⟩ | ⟨status, hcreate, -⟩ |
      ⟨hcreate, hname, hdb, -⟩ <;> rw [hcreate]
    · rfl
    · rfl
    · exact StorageEngine.lookup_insert_empty hname hdb

/-- A call on the collections of a database: an operation, or an import. -/
inductive StoreCall where
  /-- An operation. -/
  | operation (op : Operation) : StoreCall
  /-- `importFromJsonFile` on a collection. -/
  | importFromJsonFile (c : Collection) (entropies : Stream' Entropy) (filePath : Bytes)
      (file : Option Bytes) : StoreCall

namespace StoreCall

/-- The call, made. -/
def perform (text : JsonText) (codec : Codec) : StoreCall → Engine Status
  | .operation op => op.perform codec
  | .importFromJsonFile c entropies filePath file =>
    c.importFromJsonFile text codec entropies filePath file

/-- The collection a call is made on. -/
def collection : StoreCall → Option Collection
  | .operation (.createCollection _) => none
  | .operation (.document c _) => some c
  | .operation (.createIndex c _) => some c
  | .operation (.deleteIndex c _) => some c
  | .importFromJsonFile c _ _ _ => some c

end StoreCall

/-- **A step of the store**: a call, with any outcome. -/
def StoreStep (text : JsonText) (codec : Codec) (e : StorageEngine)
    (label : StoreCall × Outcome Exn Status) (e' : StorageEngine) : Prop :=
  ∃ fates, ((label.1.perform text codec).run ⟨e, fates⟩).1 = label.2 ∧
    ((label.1.perform text codec).run ⟨e, fates⟩).2.engine = e'

/-- **The step leaves the ids of a collection alone.** -/
structure KeepsIds (text : JsonText) (codec : Codec) (c : Collection) (e : StorageEngine)
    (label : StoreCall × Outcome Exn Status) : Prop where
  /-- The collection is no index of the one the call is made on. -/
  apart : ∀ c', label.1.collection = some c' → ∀ f, c.name_ ≠ indexFamily c'.name_ f
  /-- A document call on the collection that reports OK names no other document. -/
  document : ∀ call status, label = (.operation (.document c call), .ret status) →
    status.ok = true → call.NamesNoOther (e.documents codec c)
  /-- No item of an import into the collection has an empty `_id`. -/
  imported : ∀ entropies filePath file,
    label.1 = .importFromJsonFile c entropies filePath file →
      ∀ item ∈ importedItems text file, item.find? idField ≠ some (.string [])

theorem labelled_fresh (codec : Codec) (c : Collection) : Labelled codec c .fresh := by
  refine Represents.labelled (m := fun _ => none) ⟨fun id serialized hs => ?_, fun id => ?_⟩ ?_
  · rw [StorageEngine.lookup_fresh] at hs
    cases hs
  · rw [StorageEngine.document, StorageEngine.lookup_fresh]
    rfl
  · intro id data hdata
    cases hdata

/-- **A step that leaves the ids alone keeps what is stored labelled.** -/
theorem Labelled.storeStep (h : Labelled codec c e) {label : StoreCall × Outcome Exn Status}
    (hkeeps : KeepsIds text codec c e label) (hstep : StoreStep text codec e label e') :
    Labelled codec c e' := by
  obtain ⟨call, outcome⟩ := label
  obtain ⟨fates, hout, rfl⟩ := hstep
  simp only at hout
  -- a call on the collection is a step of it, and a call on another one is not seen
  have hindex (call' : CollectionCall) (hcall : call = .operation (call'.operation c))
      (hnot : ∀ x, call' ≠ .document x) :
      Labelled codec c ((call.perform text codec).run ⟨e, fates⟩).2.engine := by
    subst hcall
    refine @Labelled.step _ _ _ _ h (call', outcome) ?_ ⟨fates, hout, rfl⟩
    rintro x status ⟨⟩ -
    exact absurd rfl (hnot x)
  cases call with
  | operation op =>
    cases op with
    | createCollection name => exact h.congr fun id => lookup_run_createCollection name fates _ id
    | document c' call =>
      by_cases hc : c' = c
      · subst hc
        refine @Labelled.step _ _ _ _ h (.document call, outcome) ?_ ⟨fates, hout, rfl⟩
        rintro x status ⟨⟩ hok
        exact hkeeps.document call status rfl hok
      · exact h.frame (DocumentCall.uses_perform call) hc (hkeeps.apart c' rfl)
    | createIndex c' index =>
      by_cases hc : c' = c
      · subst hc
        exact hindex (.createIndex index) rfl (by simp)
      · exact h.frame ((Collection.uses_createIndex none index).mono fun x hx => hx.within) hc
          (hkeeps.apart c' rfl)
    | deleteIndex c' index =>
      by_cases hc : c' = c
      · subst hc
        exact hindex (.deleteIndex index) rfl (by simp)
      · exact h.frame ((Collection.uses_deleteIndex index).mono fun x hx => hx.within) hc
          (hkeeps.apart c' rfl)
  | importFromJsonFile c' entropies filePath file =>
    obtain ⟨history, hrun, hcreates⟩ := Collection.run_importFromJsonFile text codec c' ⟨e, fates⟩
      entropies filePath file
    by_cases hc : c' = c
    · subst hc
      exact h.imports (hkeeps.imported entropies filePath file rfl) hcreates hrun
    · -- each of the creates is one on another collection
      refine hrun.invariant (I := Labelled codec c) h ?_
      rintro s ⟨x, outcome'⟩ s' hs ⟨fates', -, rfl⟩
      have hwithin : ((x.operation c').perform codec).Uses (Call.Within c'.name_) := by
        cases x with
        | document x => exact DocumentCall.uses_perform x
        | createIndex index => exact (Collection.uses_createIndex none index).mono fun x hx => hx.within
        | deleteIndex index => exact (Collection.uses_deleteIndex index).mono fun x hx => hx.within
      exact hs.frame hwithin hc (hkeeps.apart c' rfl)

/-- **The id in the data of a document is the id it is stored under**, after any run whose
steps leave the ids of its collection alone. -/
theorem id_eq_key_of_keepsIds {history : List (StoreCall × Outcome Exn Status)}
    (h : History.Run (History.Meeting (KeepsIds text codec c) (StoreStep text codec)) .fresh
      history e) {id serialized : Bytes} (hlookup : e.lookup c.name_ id = some serialized) :
    ∃ doc, Document.from_msgpack codec serialized = .ok doc ∧ doc.data_.isObject = true ∧
      doc.data_.find? idField = some (.string id) := by
  have hlabelled : Labelled codec c e := by
    refine h.invariant (I := Labelled codec c) (labelled_fresh codec c) ?_
    intro s label s' hs hstep
    exact hs.storeStep hstep.1 hstep.2
  obtain ⟨doc, hdoc, -, hobject⟩ := hlabelled.represents.1 id serialized hlookup
  refine ⟨doc, hdoc, hobject, hlabelled.labelled id doc.data_ ?_ hobject⟩
  rw [StorageEngine.documents, StorageEngine.document, hlookup, Option.bind_some, hdoc]
  rfl

/-- The store after calls that all go through. -/
def storeAfter (calls : List StoreCall) : StorageEngine :=
  calls.foldl (fun e call => ((call.perform .standard .standard).run (World.calm e)).2.engine)
    .fresh

/-- A collection is created. -/
def createC : StoreCall := .operation (.createCollection letterC.name_)

/-- A file with an object that has no `_id`, and one that has. -/
def plainFile : Option Bytes :=
  some (Bytes.ofText "[\x7b\"f\": 2\x7d, \x7b\"_id\": \"b\"\x7d]")

/-- The file is imported. -/
def importPlain : StoreCall :=
  .importFromJsonFile letterC (Stream'.const ⟨0, fun _ => 0⟩) (Bytes.ofText "in.json") plainFile

theorem id_eq_key_imported : ∃ serialized doc,
    (storeAfter [createC, .operation (.document letterC createPlain),
      .operation (.document letterC setField), importPlain]).lookup letterC.name_
      (Bytes.ofText "doc_0") = some serialized ∧
    Document.from_msgpack .standard serialized = .ok doc ∧
    doc.data_.find? idField = some (.string (Bytes.ofText "doc_0")) := by
  have hapart : ∀ f, letterC.name_ ≠ indexFamily letterC.name_ f := fun f =>
    (indexFamily_ne letterC.name_ f).symm
  have hfirst : KeepsIds .standard .standard letterC .fresh (createC, .ret .OK) :=
    ⟨by rintro c' ⟨⟩, by rintro call status ⟨⟩, by rintro entropies filePath file ⟨⟩⟩
  have hsecond : KeepsIds .standard .standard letterC (storeAfter [createC])
      (.operation (.document letterC createPlain), .ret .OK) := by
    refine ⟨by rintro c' ⟨⟩; exact hapart, ?_, by rintro entropies filePath file ⟨⟩⟩
    rintro call status ⟨⟩ - v hv
    cases hv
  have hthird : KeepsIds .standard .standard letterC
      (storeAfter [createC, .operation (.document letterC createPlain)])
      (.operation (.document letterC setField), .ret .OK) := by
    refine ⟨by rintro c' ⟨⟩; exact hapart, ?_, by rintro entropies filePath file ⟨⟩⟩
    rintro call status ⟨⟩ - data doc hdata hdoc v hv
    have hbefore : (DocumentMap.before (StorageEngine.documents .standard letterC
        (storeAfter [createC, .operation (.document letterC createPlain)]))
          (Bytes.ofText "a") false) =
        some (.object [(idField, .string (Bytes.ofText "a")), (Bytes.ofText "f", .integer 1)]) :=
      by rfl
    obtain rfl := Option.some.inj (hbefore.symm.trans hdata)
    obtain rfl := Except.ok.inj hdoc
    exact (Option.some.inj hv).symm
  have hlast : KeepsIds .standard .standard letterC
      (storeAfter [createC, .operation (.document letterC createPlain),
        .operation (.document letterC setField)]) (importPlain, .ret .OK) := by
    refine ⟨by rintro c' ⟨⟩; exact hapart, by rintro call status ⟨⟩, ?_⟩
    rintro entropies filePath file ⟨⟩ item hitem hfind
    have hitems : importedItems .standard plainFile = [.object [(Bytes.ofText "f", .integer 2)],
        .object [(idField, .string (Bytes.ofText "b"))]] := by rfl
    rw [hitems] at hitem
    rcases List.mem_pair.mp hitem with rfl | rfl <;> cases hfind
  have hstored : ((storeAfter [createC, .operation (.document letterC createPlain),
      .operation (.document letterC setField), importPlain]).lookup letterC.name_
      (Bytes.ofText "doc_0")).isSome = true := by decide +kernel
  obtain ⟨serialized, hlookup⟩ := Option.isSome_iff_exists.mp hstored
  have hrun : History.Run (History.Meeting (KeepsIds .standard .standard letterC)
      (StoreStep .standard .standard)) .fresh _ _ :=
    (((History.Run.nil.snoc ⟨hfirst, Stream'.const .ok, by rfl, rfl⟩).snoc
      ⟨hsecond, Stream'.const .ok, by rfl, rfl⟩).snoc
      ⟨hthird, Stream'.const .ok, by rfl, rfl⟩).snoc ⟨hlast, Stream'.const .ok, by rfl, rfl⟩
  obtain ⟨doc, hdoc, -, hid⟩ := id_eq_key_of_keepsIds hrun hlookup
  exact ⟨serialized, doc, hlookup, hdoc, hid⟩

/-- A document is created whose data names another. -/
def foreignCall : DocumentCall :=
  .create ⟨0, fun _ => 0⟩ ⟨Bytes.ofText "a", .object [(idField, .string (Bytes.ofText "b"))]⟩

/-- The same, as a step of the store. -/
def createForeign : StoreCall := .operation (.document letterC foreignCall)

theorem not_id_eq_key_of_foreign :
    ¬∀ (c : Collection) (history : List (StoreCall × Outcome Exn Status)) (e : StorageEngine),
      History.Run (StoreStep .standard .standard) .fresh history e → ∀ id serialized,
        e.lookup c.name_ id = some serialized → ∃ doc,
          Document.from_msgpack .standard serialized = .ok doc ∧ doc.data_.isObject = true ∧
            doc.data_.find? idField = some (.string id) := by
  intro h
  have hrun : History.Run (StoreStep .standard .standard) .fresh
      [(createC, .ret .OK), (createForeign, .ret .OK)] (storeAfter [createC, createForeign]) :=
    (History.Run.nil.snoc ⟨Stream'.const .ok, by rfl, rfl⟩).snoc ⟨Stream'.const .ok, by rfl, rfl⟩
  have hlookup : (storeAfter [createC, createForeign]).lookup letterC.name_ (Bytes.ofText "a") =
      some (Document.to_msgpack .standard
        ⟨Bytes.ofText "a", .object [(idField, .string (Bytes.ofText "b"))]⟩) := by decide +kernel
  obtain ⟨doc, hdoc, -, hid⟩ := h letterC _ _ hrun _ _ hlookup
  rw [Document.from_msgpack_to_msgpack] at hdoc
  obtain rfl := Except.ok.inj hdoc
  exact absurd (Json.string.inj (Option.some.inj hid)) (by decide)

end AnuDB
