import AnuDB.Concurrency
import Mathlib.Data.Fintype.Option

/-!
# Does an index that is built lose documents?

`createIndex` creates the family of the index, opens a cursor – which walks the documents
there are at that moment – and puts an entry for each that has the field. `createDocument`
reads the list of indexes first, puts the entries for those, and puts the document last. So
a document whose writer has read the list before the family was there, and which is put
after the cursor was opened, is seen by neither.

In every run in which no document with the field is put so (`AnuDB.InTime`), and where no
two documents have one key in the index (`AnuDB.KeysApart`), the index has the entry of
every document when all calls have returned OK (`AnuDB.indexed_of_inTime`). The document
that is lost otherwise takes three engine calls of the builder and two of the writer
(`AnuDB.not_indexed_of_late`).
-/

namespace AnuDB

open Effect

/-! ### What has been heard -/

/-- The engine calls that a program has made, with their replies. -/
abbrev Heard : Type := List ((x : Call) × x.Reply)

/-- A put has been accepted. -/
def Heard.Put (told : Heard) (n key value : Bytes) : Prop :=
  ∃ status : Status, status.ok = true ∧ ⟨Call.put n key value, status⟩ ∈ told

/-- A list of indexes has been read. -/
def Heard.Listed (told : Heard) (n : Bytes) (indexes : List Bytes) : Prop :=
  ⟨Call.getIndexNames n, indexes⟩ ∈ told

/-- A cursor has been opened, on a snapshot. -/
def Heard.Opened (told : Heard) (n : Bytes) (snapshot : List (Bytes × Bytes)) : Prop :=
  ⟨Call.cursor n none, snapshot⟩ ∈ told

theorem Heard.Put.mono {told told' : Heard} {n key value : Bytes} (h : told.Put n key value)
    (hsub : told ⊆ told') : told'.Put n key value :=
  h.imp fun _ hput => ⟨hput.1, hsub hput.2⟩

/-! ### What the two calls do -/

section Programs

variable {codec : Codec} {c : Collection} {doc : Document} {f : Bytes} {told : Heard}
  {A : Heard → Call → Prop}

/-- The entry of a document is put, under a key it has in the index. -/
theorem told_insertIfIndexFieldExists (hfield : hasIndexField doc.data_ f = true)
    (hA : ∀ key, doc.EntryAt codec f key → A told (.put (c.getIndexCfName f) key doc.id_)) :
    (c.insertIfIndexFieldExists codec doc f).Told A (fun (told : Heard) status => status.ok = true →
      ∃ key, doc.EntryAt codec f key ∧ told.Put (c.getIndexCfName f) key doc.id_) told := by
  rw [Collection.insertIfIndexFieldExists]
  rcases hkey : Collection.entryKey codec doc f with exn | key
  · exact trivial
  · have hat := entryAt_iff.mpr ⟨hfield, hkey⟩
    exact Prog.told_perform (hA key hat) fun status hok =>
      ⟨key, hat, status, hok, List.mem_append_right _ (List.mem_singleton.mpr rfl)⟩

/-- **The loop of a writer** puts the entries in all the indexes it is given. -/
theorem told_forIndexes (indexes : List Bytes)
    (hA : ∀ told f key, doc.EntryAt codec f key → A told (.put (c.getIndexCfName f) key doc.id_)) :
    (Collection.forIndexes (c.insertIfIndexFieldExists codec) doc indexes).Told A
      (fun (told : Heard) status => status.ok = true → ∀ f ∈ indexes, hasIndexField doc.data_ f = true →
        ∃ key, doc.EntryAt codec f key ∧ told.Put (c.getIndexCfName f) key doc.id_) told := by
  induction indexes generalizing told with
  | nil => exact Prog.told_pure fun _ f hf => absurd hf List.not_mem_nil
  | cons g indexes ih =>
    rw [Collection.forIndexes]
    split_ifs with hg
    · refine (told_insertIfIndexFieldExists hg fun key => hA told g key).bind
        fun told₁ status _ hput => ?_
      split_ifs with hok
      · refine ih.mono fun told₂ status' hlonger hrest hok' f hf hfield => ?_
        rcases List.mem_cons.mp hf with rfl | hf
        · obtain ⟨key, hat, hput⟩ := hput hok
          exact ⟨key, hat, hput.mono hlonger.subset⟩
        · exact hrest hok' f hf hfield
      · exact Prog.told_pure fun hok' => absurd hok' hok
    · refine ih.mono fun told₁ status _ hrest hok f hf hfield => ?_
      rcases List.mem_cons.mp hf with rfl | hf
      · exact absurd hfield hg
      · exact hrest hok f hf hfield

/-- **What a writer asks for**: a list of indexes, entries of its document, and the document
itself, when the entries in all indexes of the list it has read are put. -/
inductive WriterAsks (codec : Codec) (c : Collection) (doc : Document) (told : Heard) :
    Call → Prop
  | list : WriterAsks codec c doc told (.getIndexNames c.name_)
  | entry {f key : Bytes} (hat : doc.EntryAt codec f key) :
      WriterAsks codec c doc told (.put (c.getIndexCfName f) key doc.id_)
  | document (indexes : List Bytes) (hlisted : told.Listed c.name_ indexes)
      (hentries : ∀ f ∈ indexes, hasIndexField doc.data_ f = true →
        ∃ key, doc.EntryAt codec f key ∧ told.Put (c.getIndexCfName f) key doc.id_) :
      WriterAsks codec c doc told (.put c.name_ doc.id_ (doc.to_msgpack codec))

theorem told_createDocument {entropy : Entropy} {doc' : Document}
    (hdoc : (Collection.assignId entropy doc).withId = .ok doc') :
    (c.createDocument codec entropy doc).Told (WriterAsks codec c doc') (fun _ _ => True) told := by
  rw [Collection.createDocument, hdoc]
  have hlist : (Engine.getIndexNames c.name_).Told (WriterAsks codec c doc')
      (fun (told : Heard) indexes => told.Listed c.name_ indexes) told :=
    Prog.told_perform .list fun indexes => List.mem_append_right _ (List.mem_singleton.mpr rfl)
  refine hlist.bind fun told₁ indexes _ hlisted => ?_
  refine (told_forIndexes indexes fun _ f key hat => .entry hat).bind
    fun told₂ status hlonger hentries => ?_
  split_ifs with hok
  · exact Prog.Told.bind (Prog.told_perform (R := fun _ _ => True)
      (.document indexes (hlonger.subset hlisted) (hentries hok)) fun _ => trivial)
        fun _ _ _ _ => trivial
  · exact trivial

/-- **What a builder asks for**: the family of the index, a cursor, and entries of documents in
the snapshot it walks. -/
inductive BuilderAsks (codec : Codec) (c : Collection) (f : Bytes) (told : Heard) : Call → Prop
  | family : BuilderAsks codec c f told (.createCollection (c.getIndexCfName f))
  | cursor : BuilderAsks codec c f told (.cursor c.name_ none)
  | entry {snapshot : List (Bytes × Bytes)} {x : Bytes × Bytes} {doc : Document} {key : Bytes}
      (hopened : told.Opened c.name_ snapshot) (hx : x ∈ snapshot)
      (hdoc : Document.from_msgpack codec x.2 = .ok doc) (hat : doc.EntryAt codec f key) :
      BuilderAsks codec c f told (.put (c.getIndexCfName f) key doc.id_)

/-- Every entry of a snapshot decodes, and if the document has the field its entry is put. -/
def Heard.Built (told : Heard) (codec : Codec) (c : Collection) (f : Bytes)
    (snapshot : List (Bytes × Bytes)) : Prop :=
  ∀ x ∈ snapshot, ∃ doc, Document.from_msgpack codec x.2 = .ok doc ∧
    (hasIndexField doc.data_ f = true →
      ∃ key, doc.EntryAt codec f key ∧ told.Put (c.getIndexCfName f) key doc.id_)

/-- **The loop of a builder** puts the entries of the documents it walks. -/
theorem told_indexEntries {snapshot : List (Bytes × Bytes)} (hopened : told.Opened c.name_ snapshot)
    (entries : List (Bytes × Bytes)) (hentries : entries ⊆ snapshot) :
    (c.indexEntries codec f entries).Told (BuilderAsks codec c f)
      (fun (told : Heard) status => status.ok = true → told.Built codec c f entries) told := by
  induction entries generalizing told with
  | nil => exact Prog.told_pure fun _ x hx => absurd hx List.not_mem_nil
  | cons x entries ih =>
    obtain ⟨hx, hentries⟩ := List.cons_subset.mp hentries
    rw [Collection.indexEntries]
    rcases hdoc : Document.from_msgpack codec x.2 with exn | doc
    · exact trivial
    show (if hasIndexField doc.data_ f = true then _ else _ : Engine Status).Told _ _ told
    split_ifs with hfield
    · refine (told_insertIfIndexFieldExists hfield fun key hat =>
        .entry hopened hx hdoc hat).bind fun told₁ status hlonger hput => ?_
      split_ifs with hok
      · refine (ih (hlonger.subset hopened) hentries).mono
          fun told₂ status' hlonger' hrest hok' y hy => ?_
        rcases List.mem_cons.mp hy with rfl | hy
        · obtain ⟨key, hat, hput⟩ := hput hok
          exact ⟨doc, hdoc, fun _ => ⟨key, hat, hput.mono hlonger'.subset⟩⟩
        · exact hrest hok' y hy
      · exact Prog.told_pure fun hok' => absurd hok' hok
    · refine (ih hopened hentries).mono fun told₁ status _ hrest hok y hy => ?_
      rcases List.mem_cons.mp hy with rfl | hy
      · exact ⟨doc, hdoc, fun h => absurd h hfield⟩
      · exact hrest hok y hy

/-- A builder that reports OK has walked a snapshot, and put the entries of what is in it. -/
theorem told_createIndex (codec : Codec) (c : Collection) (f : Bytes) :
    (c.createIndex codec none f).Told (BuilderAsks codec c f) (fun (told : Heard) status => status.ok = true →
      ∃ snapshot, told.Opened c.name_ snapshot ∧ told.Built codec c f snapshot) told := by
  refine Prog.Told.bind (Q := fun _ _ => True) ?_ fun told₁ status _ _ => ?_
  · refine Prog.Told.bind (Q := fun _ _ => True) (Prog.told_perform .family fun _ => trivial)
      fun told₂ r _ _ => ?_
    cases r <;> exact trivial
  · refine Prog.Told.tryCatch ?_ fun told₂ exn => ?_
    · refine Prog.Told.bind (Prog.told_perform (R := fun (told : Heard) snapshot =>
        told.Opened c.name_ snapshot) .cursor fun snapshot =>
          List.mem_append_right _ (List.mem_singleton.mpr rfl)) fun told₂ snapshot _ hopened => ?_
      refine (told_indexEntries hopened snapshot (List.Subset.refl _)).mono
        fun told₃ status hlonger hbuilt hok => ?_
      exact ⟨snapshot, hlonger.subset hopened, hbuilt hok⟩
    · -- what is caught is no success
      cases exn with
      | exception what => exact Prog.told_pure fun hok => absurd hok (by simp)
      | undefined u => exact trivial

end Programs

/-! ### What one call leaves -/

section Serves

variable {e e' : StorageEngine} {n key value : Bytes}

/-- **A put leaves its value if it is accepted**, and nothing else. -/
theorem Serves.lookup_put {status : Status} (h : Serves (.put n key value) e status e')
    (m k : Bytes) : e'.lookup m k =
      if status.ok = true ∧ m = n ∧ k = key then some value else e.lookup m k := by
  obtain ⟨fault, hexec⟩ := h
  have hput : e.tryWrite fault ⟨n, key, some value⟩ = (status, e') := hexec
  obtain rfl : (e.tryWrite fault ⟨n, key, some value⟩).1 = status := congrArg Prod.fst hput
  obtain rfl : (e.tryWrite fault ⟨n, key, some value⟩).2 = e' := congrArg Prod.snd hput
  rw [StorageEngine.lookup_tryWrite]
  refine if_congr ?_ rfl rfl
  rw [StorageEngine.tryWrite_ok_iff, and_assoc]
  constructor
  · rintro ⟨hfault, rfl, hk, hmem⟩
    exact ⟨hfault, hmem, rfl, hk⟩
  · rintro ⟨hfault, hmem, rfl, hk⟩
    exact ⟨hfault, rfl, hk, hmem⟩

/-- A family that is created is empty. -/
theorem Serves.lookup_createCollection {r : Except Exn Status}
    (h : Serves (.createCollection n) e r e') (m k : Bytes) : e'.lookup m k = e.lookup m k := by
  obtain ⟨fault, hexec⟩ := h
  obtain ⟨hsame, -, -⟩ | ⟨status, hsame, -⟩ | ⟨hcreated, hn, hdb, -⟩ :=
    e.createCollection_cases fault n
  · rw [show e' = e from (congrArg Prod.snd hexec).symm.trans (congrArg Prod.snd hsame)]
  · rw [show e' = e from (congrArg Prod.snd hexec).symm.trans (congrArg Prod.snd hsame)]
  · rw [show e' = _ from (congrArg Prod.snd hexec).symm.trans (congrArg Prod.snd hcreated)]
    exact StorageEngine.lookup_insert_empty hn hdb

theorem Serves.cursor {snapshot : List (Bytes × Bytes)} (h : Serves (.cursor n none) e snapshot e') :
    snapshot = e.cursor n ∧ e' = e := by
  obtain ⟨fault, hexec⟩ := h
  exact ⟨(congrArg Prod.fst hexec).symm, (congrArg Prod.snd hexec).symm⟩

theorem Serves.getIndexNames {indexes : List Bytes} (h : Serves (.getIndexNames n) e indexes e') :
    e' = e := by
  obtain ⟨fault, hexec⟩ := h
  exact (congrArg Prod.snd hexec).symm

end Serves

/-! ### The race -/

section Race

variable {ι : Type} (codec : Codec) (c : Collection) (f : Bytes)
  (creates : ι → Entropy × Document) (e : StorageEngine)

/-- One index is created, and any number of documents. -/
def racers : Option ι → Engine Status
  | none => c.createIndex codec none f
  | some i => (DocumentCall.create (creates i).1 (creates i).2).perform codec c

/-- **The race**, before anybody has made a call. -/
def race : Underway (Option ι) := Pool.start e (racers codec c f creates)

/-- The document that a writer stores, if it can be given its `_id`. -/
def Stores (i : ι) (doc : Document) : Prop :=
  (Collection.assignId (creates i).1 (creates i).2).withId = .ok doc

/-- The documents of the race: those that are there, and those that are created. -/
def Involved (doc : Document) : Prop :=
  (∃ id, e.document codec c.name_ id = some doc) ∨ ∃ i, Stores creates i doc

/-- **Documents with different ids have different keys** in the index. -/
def KeysApart : Prop :=
  ∀ doc doc' key, Involved codec c creates e doc → Involved codec c creates e doc' →
    doc.EntryAt codec f key → doc'.EntryAt codec f key → doc.id_ = doc'.id_

/-- **A document with the field is put in time**: before the cursor is opened, or by a writer that
has read a list of indexes with this one. -/
def InTime (p : Underway (Option ι)) (label : Option ι × ((x : Call) × x.Reply)) : Prop :=
  ∀ i doc, label.1 = some i → Stores creates i doc → label.2.1.documentWritten c = some doc.id_ →
    hasIndexField doc.data_ f = true → (∃ snapshot, Heard.Opened (p.made none) c.name_ snapshot) →
    ∀ indexes, Heard.Listed (p.made (some i)) c.name_ indexes → f ∈ indexes

/-- **Every document with the field has its entry in the index.** -/
def Indexed : Prop :=
  ∀ id doc, e.document codec c.name_ id = some doc → hasIndexField doc.data_ f = true →
    ∃ key, doc.EntryAt codec f key ∧ e.lookup (c.getIndexCfName f) key = some doc.id_

/-- The entry of a document has been put, by whomever. -/
def EntryPut (p : Underway (Option ι)) (doc : Document) : Prop :=
  ∃ j key, doc.EntryAt codec f key ∧ Heard.Put (p.made j) (c.getIndexCfName f) key doc.id_

/-- **The invariant of the race.** -/
structure Caught (p : Underway (Option ι)) : Prop where
  /-- What is stored is a document of the race. -/
  documents : ∀ id doc, p.state.document codec c.name_ id = some doc → Involved codec c creates e doc
  /-- So is what is in a snapshot. -/
  snapshots : ∀ snapshot, Heard.Opened (p.made none) c.name_ snapshot → ∀ x ∈ snapshot, ∀ doc,
    Document.from_msgpack codec x.2 = .ok doc → Involved codec c creates e doc
  /-- What is not in a snapshot has its entry put, if it has the field. -/
  caught : ∀ snapshot, Heard.Opened (p.made none) c.name_ snapshot → ∀ id v,
    p.state.lookup c.name_ id = some v → (id, v) ∈ snapshot ∨ ∀ doc,
      Document.from_msgpack codec v = .ok doc → hasIndexField doc.data_ f = true → EntryPut codec c f p doc
  /-- An entry that has been put is there, and it is of a document of the race. -/
  entries : ∀ j key id, Heard.Put (p.made j) (c.getIndexCfName f) key id →
    p.state.lookup (c.getIndexCfName f) key = some id ∧
      ∃ doc, Involved codec c creates e doc ∧ doc.EntryAt codec f key ∧ doc.id_ = id

variable {codec c f creates e} [DecidableEq ι] {p : Underway (Option ι)} {j : Option ι}
  {x : (x : Call) × x.Reply} {s' : StorageEngine} {q : Engine Status}

/-! ### Steps of the race -/

theorem EntryPut.advance {doc : Document} (h : EntryPut codec c f p doc) :
    EntryPut codec c f (p.advance j x s' q) doc := by
  obtain ⟨i, key, hat, hput⟩ := h
  exact ⟨i, key, hat, hput.mono fun y hy => Pool.mem_advance_made.mpr (Or.inl hy)⟩

/-- What has been put: what had been, and what was put last. -/
theorem put_advance {i : Option ι} {n key value : Bytes}
    (h : Heard.Put ((p.advance j x s' q).made i) n key value) : Heard.Put (p.made i) n key value ∨
      ∃ status : Status, status.ok = true ∧ x = ⟨.put n key value, status⟩ := by
  obtain ⟨status, hok, hmem⟩ := h
  rcases Pool.mem_advance_made.mp hmem with hold | ⟨-, hnew⟩
  · exact Or.inl ⟨status, hok, hold⟩
  · exact Or.inr ⟨status, hok, hnew.symm⟩

omit [DecidableEq ι] in
theorem involved_of_lookup (h : Caught codec c f creates e p) {id v : Bytes} {doc : Document}
    (hv : p.state.lookup c.name_ id = some v) (hdoc : Document.from_msgpack codec v = .ok doc) :
    Involved codec c creates e doc := by
  refine h.documents id doc ?_
  rw [StorageEngine.document, hv, Option.bind_some, hdoc]
  rfl

/-- **A call that writes nothing** keeps the invariant; a cursor walks what is stored. -/
theorem Caught.quiet (h : Caught codec c f creates e p)
    (hlookup : ∀ m k, s'.lookup m k = p.state.lookup m k)
    (hput : ∀ n key value status, x ≠ ⟨.put n key value, status⟩)
    (hcursor : ∀ snapshot, x = ⟨.cursor c.name_ none, snapshot⟩ → snapshot = p.state.cursor c.name_) :
    Caught codec c f creates e (p.advance j x s' q) where
  documents := by
    intro id doc hdoc
    rw [StorageEngine.document, Pool.advance_state, hlookup] at hdoc
    exact h.documents id doc hdoc
  snapshots := by
    intro snapshot hopened y hy doc hdoc
    rcases Pool.mem_advance_made.mp hopened with hopened | ⟨-, hopened⟩
    · exact h.snapshots snapshot hopened y hy doc hdoc
    · rw [hcursor snapshot hopened.symm] at hy
      exact involved_of_lookup h (StorageEngine.mem_cursor.mp hy) hdoc
  caught := by
    intro snapshot hopened id v hv
    rw [Pool.advance_state, hlookup] at hv
    rcases Pool.mem_advance_made.mp hopened with hopened | ⟨-, hopened⟩
    · refine (h.caught snapshot hopened id v hv).imp_right fun hentry doc hdoc hfield => ?_
      exact (hentry doc hdoc hfield).advance
    · rw [hcursor snapshot hopened.symm]
      exact Or.inl (StorageEngine.mem_cursor.mpr hv)
  entries := by
    intro i key id hentry
    rw [Pool.advance_state, hlookup]
    rcases put_advance hentry with hentry | ⟨status, -, hnew⟩
    · exact h.entries i key id hentry
    · exact absurd hnew (hput _ _ _ status)

/-- **An entry of a document of the race** is put. -/
theorem Caught.entry (h : Caught codec c f creates e p) (hkeys : KeysApart codec c f creates e)
    {g key : Bytes} {doc : Document} {status : Status} (hdoc : Involved codec c creates e doc)
    (hat : doc.EntryAt codec g key)
    (hserves : Serves (.put (c.getIndexCfName g) key doc.id_) p.state status s') :
    Caught codec c f creates e
      (p.advance j ⟨.put (c.getIndexCfName g) key doc.id_, status⟩ s' q) := by
  have hdocuments (id : Bytes) : s'.lookup c.name_ id = p.state.lookup c.name_ id := by
    rw [hserves.lookup_put, if_neg]
    rintro ⟨-, hname, -⟩
    exact indexFamily_ne c.name_ g hname.symm
  have hopened {snapshot : List (Bytes × Bytes)}
      (hopened : Heard.Opened ((p.advance j ⟨.put (c.getIndexCfName g) key doc.id_, status⟩ s' q).made
        none) c.name_ snapshot) : Heard.Opened (p.made none) c.name_ snapshot :=
    (Pool.mem_advance_made.mp hopened).resolve_right fun hnew => by simp at hnew
  refine ⟨fun id doc' hdoc' => ?_, fun snapshot hs => h.snapshots snapshot (hopened hs), ?_, ?_⟩
  · rw [StorageEngine.document, Pool.advance_state, hdocuments] at hdoc'
    exact h.documents id doc' hdoc'
  · intro snapshot hs id v hv
    rw [Pool.advance_state, hdocuments] at hv
    refine (h.caught snapshot (hopened hs) id v hv).imp_right fun hentry doc hdoc hfield => ?_
    exact (hentry doc hdoc hfield).advance
  · intro i key' id hentry
    rw [Pool.advance_state, hserves.lookup_put]
    rcases put_advance hentry with hentry | ⟨status', hok, hnew⟩
    · obtain ⟨hlookup, doc', hinvolved, hat', rfl⟩ := h.entries i key' id hentry
      refine ⟨?_, doc', hinvolved, hat', rfl⟩
      split_ifs with hsame
      · -- two documents with one key have one id
        obtain ⟨-, hname, rfl⟩ := hsame
        obtain rfl := indexFamily_injective hname
        rw [hkeys doc doc' key' hdoc hinvolved hat hat']
      · exact hlookup
    · obtain ⟨hcall, hstatus⟩ := Sigma.mk.inj hnew
      obtain ⟨hname, rfl, rfl⟩ := Call.put.inj hcall
      obtain rfl := eq_of_heq hstatus
      obtain rfl := indexFamily_injective hname
      exact ⟨if_pos ⟨hok, rfl, rfl⟩, doc, hdoc, hat, rfl⟩

/-- **A document is put in time**: with its entry put, if it is not in the snapshot. -/
theorem Caught.document (h : Caught codec c f creates e p) {doc : Document} {status : Status}
    (hdoc : Involved codec c creates e doc)
    (hentry : hasIndexField doc.data_ f = true →
      (∃ snapshot, Heard.Opened (p.made none) c.name_ snapshot) → EntryPut codec c f p doc)
    (hserves : Serves (.put c.name_ doc.id_ (doc.to_msgpack codec)) p.state status s') :
    Caught codec c f creates e
      (p.advance j ⟨.put c.name_ doc.id_ (doc.to_msgpack codec), status⟩ s' q) := by
  have hopened {snapshot : List (Bytes × Bytes)} (hopened : Heard.Opened
      ((p.advance j ⟨.put c.name_ doc.id_ (doc.to_msgpack codec), status⟩ s' q).made none) c.name_
        snapshot) : Heard.Opened (p.made none) c.name_ snapshot :=
    (Pool.mem_advance_made.mp hopened).resolve_right fun hnew => by simp at hnew
  have hlookup {id v : Bytes} (hv : s'.lookup c.name_ id = some v) :
      p.state.lookup c.name_ id = some v ∨ v = doc.to_msgpack codec := by
    rw [hserves.lookup_put] at hv
    split_ifs at hv
    · exact Or.inr (Option.some.inj hv).symm
    · exact Or.inl hv
  refine ⟨fun id doc' hdoc' => ?_, fun snapshot hs => h.snapshots snapshot (hopened hs), ?_, ?_⟩
  · obtain ⟨v, hv, hdecode⟩ := Option.bind_eq_some_iff.mp hdoc'
    rcases hlookup hv with hold | rfl
    · exact involved_of_lookup h hold (eq_ok_of_toOption hdecode)
    · rw [Document.from_msgpack_to_msgpack] at hdecode
      rwa [← Option.some.inj hdecode]
  · intro snapshot hs id v hv
    rcases hlookup hv with hold | rfl
    · refine (h.caught snapshot (hopened hs) id v hold).imp_right fun hentry doc hdoc hfield => ?_
      exact (hentry doc hdoc hfield).advance
    · refine Or.inr fun doc' hdoc' hfield => ?_
      rw [Document.from_msgpack_to_msgpack] at hdoc'
      obtain rfl := Except.ok.inj hdoc'
      exact (hentry hfield ⟨snapshot, hopened hs⟩).advance
  · intro i key id hput
    rw [Pool.advance_state, hserves.lookup_put, if_neg]
    · rcases put_advance hput with hput | ⟨status', -, hnew⟩
      · exact h.entries i key id hput
      · obtain ⟨hname, -, -⟩ := Call.put.inj (Sigma.mk.inj hnew).1
        exact absurd hname.symm (indexFamily_ne c.name_ f)
    · rintro ⟨-, hname, -⟩
      exact indexFamily_ne c.name_ f hname

omit [DecidableEq ι] in
/-- What a writer asks for is about the document it stores. -/
theorem told_writer (i : ι) : (racers codec c f creates (some i)).Told
    (fun told x => ∃ doc, Stores creates i doc ∧ WriterAsks codec c doc told x)
    (fun _ _ => True) [] := by
  show (Prod.fst <$> c.createDocument codec (creates i).1 (creates i).2).Told _ _ []
  rw [map_eq_pure_bind]
  rcases hdoc : (Collection.assignId (creates i).1 (creates i).2).withId with exn | doc
  · rw [Collection.createDocument, hdoc]
    exact trivial
  · refine Prog.Told.bind (Q := fun _ _ => True) ?_ fun _ _ _ _ => trivial
    exact (told_createDocument hdoc).weaken fun told x hasks => ⟨doc, hdoc, hasks⟩

omit [DecidableEq ι] in
theorem caught_race : Caught codec c f creates e (race codec c f creates e) where
  documents := fun id _ hdoc => Or.inl ⟨id, hdoc⟩
  snapshots := fun _ hopened => absurd hopened List.not_mem_nil
  caught := fun _ hopened => absurd hopened List.not_mem_nil
  entries := fun _ _ _ ⟨_, _, hput⟩ => absurd hput List.not_mem_nil

variable {history : List (Option ι × ((x : Call) × x.Reply))}

/-- **The invariant holds in every run whose documents are put in time.** -/
theorem caught_of_inTime (hkeys : KeysApart codec c f creates e)
    (h : History.Run (History.Meeting (InTime c f creates) (Pool.Step Serves))
      (race codec c f creates e) history p) : Caught codec c f creates e p := by
  induction h with
  | nil => exact caught_race
  | @snoc history p p' label hrun hstep ih =>
    obtain ⟨htime, ⟨hrest, hserves⟩⟩ := hstep
    rename_i j x s' k r
    cases j with
    | none =>
      have htold := Pool.told hrun.of_meeting none (told_createIndex codec c f)
      rw [hrest] at htold
      cases htold.1 with
      | family =>
        exact ih.quiet (Serves.lookup_createCollection hserves) (fun _ _ _ _ h => by simp at h)
          fun _ h => by simp at h
      | cursor =>
        obtain ⟨rfl, rfl⟩ := Serves.cursor hserves
        refine ih.quiet (fun _ _ => rfl) (fun _ _ _ _ h => by simp at h) fun snapshot h => ?_
        exact (eq_of_heq (Sigma.mk.inj h).2).symm
      | entry hopened hx hdoc hat =>
        exact ih.entry hkeys (ih.snapshots _ hopened _ hx _ hdoc) hat hserves
    | some i =>
      have htold := Pool.told hrun.of_meeting (some i) (told_writer i)
      rw [hrest] at htold
      obtain ⟨doc, hstores, hasks⟩ := htold.1
      have hinvolved : Involved codec c creates e doc := Or.inr ⟨i, hstores⟩
      cases hasks with
      | list =>
        obtain rfl := Serves.getIndexNames hserves
        exact ih.quiet (fun _ _ => rfl) (fun _ _ _ _ h => by simp at h) fun _ h => by simp at h
      | entry hat => exact ih.entry hkeys hinvolved hat hserves
      | document indexes hlisted hentries =>
        refine ih.document hinvolved (fun hfield hopened => ?_) hserves
        have hmem := htime i doc rfl hstores (if_pos rfl) hfield hopened indexes hlisted
        obtain ⟨key, hat, hput⟩ := hentries f hmem hfield
        exact ⟨some i, key, hat, hput⟩

/-- **When an index that is built loses no document**: once it has been built with success, in
every run in which documents with the field are put in time, if their keys are apart. -/
theorem indexed_of_inTime (hkeys : KeysApart codec c f creates e)
    (h : History.Run (History.Meeting (InTime c f creates) (Pool.Step Serves))
      (race codec c f creates e) history p)
    (hbuilt : ∃ status, p.rest none = .ret status ∧ status.ok = true) :
    Indexed codec c f p.state := by
  have hcaught := caught_of_inTime hkeys h
  have htold := Pool.told h.of_meeting none (told_createIndex codec c f)
  obtain ⟨status, hret, hok⟩ := hbuilt
  rw [hret] at htold
  obtain ⟨snapshot, hopened, hentries⟩ := htold hok
  intro id doc hdoc hfield
  obtain ⟨v, hv, hdecode⟩ := Option.bind_eq_some_iff.mp hdoc
  have hdecode := eq_ok_of_toOption hdecode
  have hput : EntryPut codec c f p doc := by
    rcases hcaught.caught snapshot hopened id v hv with hmem | hentry
    · obtain ⟨doc', hdoc', hentry⟩ := hentries _ hmem
      obtain rfl := Except.ok.inj (hdecode.symm.trans hdoc')
      obtain ⟨key, hat, hput⟩ := hentry hfield
      exact ⟨none, key, hat, hput⟩
    · exact hentry doc hdecode hfield
  obtain ⟨j, key, hat, hput⟩ := hput
  exact ⟨key, hat, (hcaught.entries j key doc.id_ hput).1⟩

end Race

/-! ### Two races -/

section Races

variable {ι : Type} [DecidableEq ι] {c : Collection} {f : Bytes} {creates : ι → Entropy × Document}
  {p : Underway (Option ι)} {j : Option ι}

/-- Whether the call opens a cursor. -/
def opensCursor : Call → Bool
  | .cursor .. => true
  | _ => false

/-- Whether a turn puts no document, or no cursor has been opened. -/
def timelyTurn (c : Collection) (p : Underway (Option ι)) (j : Option ι) : Bool :=
  match p.rest j with
  | .call x _ => (x.documentWritten c).isNone || (p.made none).all fun y => !opensCursor y.1
  | _ => false

theorem step_timelyTurn (h : timelyTurn c p j = true) : ∃ label,
    History.Meeting (InTime c f creates) (Pool.Step Serves) p label (DocumentCall.turn p j) := by
  rw [timelyTurn] at h
  split at h
  · rename_i x k hrest
    refine ⟨_, ?_, Pool.step_turn DocumentCall.serves_exec hrest⟩
    rintro i doc - - hwritten - ⟨snapshot, hopened⟩
    rcases Bool.or_eq_true_iff.mp h with hnone | hall
    · rw [show x.documentWritten c = _ from hwritten] at hnone
      exact absurd hnone (by simp)
    · exact absurd (List.all_eq_true.mp hall _ hopened) (by simp [opensCursor])
  · exact absurd h (by simp)

end Races

/-- A collection without documents. -/
def emptyCollection : StorageEngine :=
  Operation.afterAll .standard .fresh [.createCollection letterC.name_]

/-- One document with the field is created. -/
def oneCreate : Fin 1 → Entropy × Document := fun _ => (⟨0, fun _ => 0⟩, numbered 1)

theorem keysApart_oneCreate :
    KeysApart .standard letterC (Bytes.ofText "f") oneCreate emptyCollection := by
  have hnone (id : Bytes) (doc : Document) :
      emptyCollection.document .standard letterC.name_ id ≠ some doc := by
    rw [StorageEngine.document, StorageEngine.lookup_of_empty (by decide +kernel)]
    simp
  rintro doc doc' key (⟨id, hdoc⟩ | ⟨i, hdoc⟩) (⟨id', hdoc'⟩ | ⟨i', hdoc'⟩) - -
  · exact absurd hdoc (hnone id doc)
  · exact absurd hdoc (hnone id doc)
  · exact absurd hdoc' (hnone id' doc')
  · rw [Except.ok.inj (Eq.trans (Eq.symm hdoc) hdoc')]

theorem indexed_early : ∃ p : Underway (Option (Fin 1)), (∀ j, (p.rest j).Done) ∧
    (p.state.lookup letterC.name_ (Bytes.ofText "a")).isSome = true ∧
    Indexed .standard letterC (Bytes.ofText "f") p.state := by
  have hallowed : Pool.allows (fun x e => StorageEngine.exec e none x) (timelyTurn letterC)
      [some 0, some 0, none, none, none]
      (race .standard letterC (Bytes.ofText "f") oneCreate emptyCollection) = true := by
    decide +kernel
  obtain ⟨history, hrun⟩ := Pool.run_of_allows (fun p j => step_timelyTurn) hallowed
  exact ⟨_, by decide +kernel, by decide +kernel,
    indexed_of_inTime keysApart_oneCreate hrun ⟨.OK, by rfl, rfl⟩⟩

/-- The list of indexes is read before the family of the index is there, and the document is put
when the cursor has walked the collection. -/
def putLate : Underway (Option (Fin 1)) :=
  [some 0, none, none, some 0].foldl DocumentCall.turn
    (race .standard letterC (Bytes.ofText "f") oneCreate emptyCollection)

/-- **A document that is seen neither by the builder nor by its writer has no entry**: both report
OK. -/
theorem not_indexed_of_late : Reachable .standard emptyCollection ∧
    emptyCollection.lookup letterC.name_ (numbered 1).id_ = none ∧
    (∃ history, History.Run (Pool.Step Serves)
      (race .standard letterC (Bytes.ofText "f") oneCreate emptyCollection) history putLate) ∧
    (∀ j, (putLate.rest j).ending = .ret .OK) ∧
    ¬Indexed .standard letterC (Bytes.ofText "f") putLate.state := by
  have hallowed : Pool.allows (fun x e => StorageEngine.exec e none x)
      (fun p j => !decide (p.rest j).Done) [some 0, none, none, some 0]
      (race .standard letterC (Bytes.ofText "f") oneCreate emptyCollection) = true := by
    decide +kernel
  refine ⟨Reachable.fresh.afterAll _, by decide +kernel, Pool.run_of_allows (fun p j hj => ?_) hallowed,
    by decide +kernel, fun h => ?_⟩
  · obtain ⟨x, k, hrest⟩ := Prog.exists_call_of_not_done (p := p.rest j) (by simpa using hj)
    exact ⟨_, Pool.step_turn DocumentCall.serves_exec hrest⟩
  · have hempty : putLate.state.contents (letterC.getIndexCfName (Bytes.ofText "f")) = some ∅ := by
      decide +kernel
    let doc : Document := ⟨Bytes.ofText "a", .object [(idField, .string (Bytes.ofText "a")),
      (Bytes.ofText "f", .integer 1)]⟩
    have hdoc : putLate.state.document .standard letterC.name_ (Bytes.ofText "a") = some doc := by
      have hlookup : putLate.state.lookup letterC.name_ (Bytes.ofText "a") =
          some (doc.to_msgpack .standard) := by rfl
      rw [StorageEngine.document, hlookup, Option.bind_some, Document.from_msgpack_to_msgpack]
      rfl
    obtain ⟨key, -, hlookup⟩ := h _ _ hdoc rfl
    rw [StorageEngine.lookup_of_empty hempty] at hlookup
    exact absurd hlookup (by simp)

end AnuDB
