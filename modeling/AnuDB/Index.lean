import AnuDB.Operations

/-!
# What operations do to documents and to index entries

A document with a field has its entry in an index on the field under one key
(`AnuDB.Document.EntryAt`). This file reads the effect of every operation that reports OK
off its list of writes, family by family and key by key:

* a document that is stored has its entries written, one that is removed has them
  removed, and no other key of an index changes (`AnuDB.DocumentCall.IsBatch`);
* an index that is built gets the entries of the documents there are, and a key two of
  them share gets one of the two (`AnuDB.Collection.Built`).

The first invariant of runs is here too: a stored document decodes, and the id in it is
the key it is stored under (`AnuDB.IdsAgree`).
-/

namespace AnuDB

variable {codec : Codec} {e e' : StorageEngine}

/-! ### The entry of a document -/

/-- **The key of a document's entry in an index on a field**: the document has the field,
and the key is the key of its value, `#`, and its id. -/
def Document.EntryAt (codec : Codec) (doc : Document) (f key : Bytes) : Prop :=
  ∃ value k, doc.data_.find? f = some value ∧ parseValue codec value = .ok k ∧
    key = k ++ separator ++ doc.id_

theorem indexKey_eq_ok_iff {value : Json} {id key : Bytes} :
    indexKey codec value id = .ok key ↔ ∃ k, parseValue codec value = .ok k ∧ key = k ++ separator ++ id := by
  rw [indexKey, bind_eq_ok_iff]
  refine exists_congr fun k => and_congr_right fun _ => ?_
  exact ⟨fun h => (Except.ok.inj h).symm, fun h => h ▸ rfl⟩

theorem entryAt_iff {doc : Document} {f key : Bytes} :
    doc.EntryAt codec f key ↔ hasIndexField doc.data_ f = true ∧ Collection.entryKey codec doc f = .ok key := by
  rw [hasIndexField, Json.contains, Collection.entryKey, indexKey_eq_ok_iff]
  rcases hv : doc.data_.find? f with _ | value <;> simp [Document.EntryAt, hv]

theorem Document.EntryAt.unique {doc : Document} {f key key' : Bytes} (h : doc.EntryAt codec f key)
    (h' : doc.EntryAt codec f key') : key = key' := by
  have hkey := (entryAt_iff.mp h).2
  rw [(entryAt_iff.mp h').2] at hkey
  exact (Except.ok.inj hkey).symm

theorem Document.EntryAt.hasField {doc : Document} {f key : Bytes} (h : doc.EntryAt codec f key) :
    hasIndexField doc.data_ f = true := (entryAt_iff.mp h).1

/-! ### Writes of entries -/

namespace DocumentCall

variable {c : Collection} {doc : Document} {value : Option Bytes} {indexes : List Bytes}

theorem mem_entrySteps {x : Write} : .ok x ∈ entrySteps codec c doc value indexes ↔
    ∃ f ∈ indexes, ∃ key, doc.EntryAt codec f key ∧ x = ⟨indexFamily c.name_ f, key, value⟩ := by
  rw [entrySteps, List.mem_map]
  constructor
  · rintro ⟨f, hf, hx⟩
    obtain ⟨hmem, hfield⟩ := List.mem_filter.mp hf
    rcases hkey : Collection.entryKey codec doc f with exn | key
    · simp [hkey, Except.map] at hx
    · rw [hkey] at hx
      exact ⟨f, hmem, key, entryAt_iff.mpr ⟨hfield, hkey⟩, (Except.ok.inj hx).symm⟩
  · rintro ⟨f, hmem, key, hentry, rfl⟩
    obtain ⟨hfield, hkey⟩ := entryAt_iff.mp hentry
    exact ⟨f, List.mem_filter.mpr ⟨hmem, hfield⟩, by rw [hkey]; rfl⟩

/-- Where all the steps are writes, every listed index on a field the document has gets
its entry. -/
theorem exists_entryAt {ws : List Write} {f : Bytes}
    (hsteps : storeSteps codec c doc indexes = ws.map .ok) (hf : f ∈ indexes)
    (hfield : hasIndexField doc.data_ f = true) : ∃ key, doc.EntryAt codec f key := by
  rcases hkey : Collection.entryKey codec doc f with exn | key
  · have hmem : .error exn ∈ storeSteps codec c doc indexes :=
      List.mem_append_left _
        (List.mem_map.mpr ⟨f, List.mem_filter.mpr ⟨hf, hfield⟩, by rw [hkey]; rfl⟩)
    obtain ⟨x, -, hx⟩ := List.mem_map.mp (hsteps ▸ hmem)
    exact absurd hx (by simp)
  · exact ⟨key, entryAt_iff.mpr ⟨hfield, hkey⟩⟩

/-- **The writes of a document call that completes**: in each listed index on a field the
document has the entry, and under an id the document. Storing and removing differ in
what is written. -/
def IsBatch (codec : Codec) (c : Collection) (doc : Document) (indexes : List Bytes) (value : Option Bytes)
    (id : Bytes) (last : Option Bytes) (ws : List Write) : Prop :=
  ∀ x, x ∈ ws ↔ (∃ f ∈ indexes, ∃ key, doc.EntryAt codec f key ∧
    x = ⟨indexFamily c.name_ f, key, value⟩) ∨ x = ⟨c.name_, id, last⟩

theorem batch_of_steps {ws : List Write} {id : Bytes} {last : Option Bytes}
    (h : entrySteps codec c doc value indexes ++ [.ok ⟨c.name_, id, last⟩] = ws.map .ok) :
    IsBatch codec c doc indexes value id last ws := by
  intro x
  rw [← writesOf_map_ok ws, ← h, mem_writesOf, List.mem_append, mem_entrySteps,
    List.mem_singleton, Except.ok.injEq]

namespace IsBatch

variable {id key n : Bytes} {last : Option Bytes} {ws : List Write}
  (h : IsBatch codec c doc indexes value id last ws)

include h

/-- The document is written. -/
theorem lookup_document (hmem : c.name_ ∈ e.columnFamilies_) :
    (e.applyAll ws).lookup c.name_ id = last := by
  obtain ⟨y, hy, hfamily, -, hlookup⟩ := StorageEngine.exists_lookup_applyAll (e := e)
    (x := ⟨c.name_, id, last⟩) ((h _).mpr (Or.inr rfl)) hmem
  rcases (h y).mp hy with ⟨f, -, key, -, rfl⟩ | rfl
  · exact absurd hfamily (indexFamily_ne c.name_ f)
  · exact hlookup

/-- Other documents are left alone. -/
theorem lookup_document_of_ne (hne : key ≠ id) :
    (e.applyAll ws).lookup c.name_ key = e.lookup c.name_ key := by
  refine StorageEngine.lookup_applyAll_of_forall fun x hx hfamily hkey => ?_
  rcases (h x).mp hx with ⟨f, -, key, -, rfl⟩ | rfl
  · exact indexFamily_ne c.name_ f hfamily
  · exact hne hkey.symm

/-- **The entry of the document is written** in every listed index. -/
theorem lookup_entry {f : Bytes} (hf : f ∈ indexes)
    (hmem : indexFamily c.name_ f ∈ e.columnFamilies_) (hentry : doc.EntryAt codec f key) :
    (e.applyAll ws).lookup (indexFamily c.name_ f) key = value := by
  obtain ⟨y, hy, hfamily, -, hlookup⟩ := StorageEngine.exists_lookup_applyAll (e := e)
    (x := ⟨indexFamily c.name_ f, key, value⟩) ((h _).mpr (Or.inl ⟨f, hf, key, hentry, rfl⟩)) hmem
  rcases (h y).mp hy with ⟨f', -, key', -, rfl⟩ | rfl
  · exact hlookup
  · exact absurd hfamily.symm (indexFamily_ne c.name_ f)

/-- Families of other collections are left alone. -/
theorem lookup_other (hdocuments : n ≠ c.name_)
    (hindexes : ∀ f ∈ indexes, n ≠ indexFamily c.name_ f) :
    (e.applyAll ws).lookup n key = e.lookup n key := by
  refine StorageEngine.lookup_applyAll_of_forall fun x hx hfamily _ => ?_
  rcases (h x).mp hx with ⟨f, hf, key', -, rfl⟩ | rfl
  · exact hindexes f hf hfamily.symm
  · exact hdocuments hfamily.symm

end IsBatch

/-- **A family keeps what it holds under a key**, unless the key is the one the document is
written under, or that of an entry. -/
theorem IsBatch.lookup_of_not {n id key : Bytes} {last : Option Bytes} {ws : List Write}
    (h : IsBatch codec c doc indexes value id last ws) (hdocument : ¬(n = c.name_ ∧ key = id))
    (hentry : ∀ f ∈ indexes, n = indexFamily c.name_ f → ¬doc.EntryAt codec f key) :
    (e.applyAll ws).lookup n key = e.lookup n key := by
  refine StorageEngine.lookup_applyAll_of_forall fun x hx hfamily hkey => ?_
  rcases (h x).mp hx with ⟨f, hf, key', hat, rfl⟩ | rfl
  · exact hentry f hf hfamily.symm (hkey ▸ hat)
  · exact hdocument ⟨hfamily.symm, hkey.symm⟩

/-- **What is left when a document is removed** has been there before, and is neither the document
nor an entry of it. -/
theorem IsBatch.lookup_of_removed {n id key v : Bytes} {ws : List Write}
    (h : IsBatch codec c doc indexes none id none ws) (hmem : ∀ x ∈ ws, x.family ∈ e.columnFamilies_)
    (hv : (e.applyAll ws).lookup n key = some v) : e.lookup n key = some v ∧
      ¬(n = c.name_ ∧ key = id) ∧
      ∀ f ∈ indexes, n = indexFamily c.name_ f → ¬doc.EntryAt codec f key := by
  have hkept : ¬∃ x ∈ ws, x.family = n ∧ x.key = key := by
    rintro ⟨x, hx, rfl, rfl⟩
    obtain ⟨y, hy, -, -, hlookup⟩ := StorageEngine.exists_lookup_applyAll hx (hmem x hx)
    have hnone : y.value = none := by
      rcases (h y).mp hy with ⟨f, -, key, -, rfl⟩ | rfl <;> rfl
    rw [hlookup, hnone] at hv
    cases hv
  refine ⟨?_, ?_, fun f hf hn hat => ?_⟩
  · rw [← hv]
    exact (StorageEngine.lookup_applyAll_of_forall fun x hx hfamily hkey =>
      hkept ⟨x, hx, hfamily, hkey⟩).symm
  · rintro ⟨rfl, rfl⟩
    exact hkept ⟨_, (h _).mpr (Or.inr rfl), rfl, rfl⟩
  · subst hn
    exact hkept ⟨_, (h _).mpr (Or.inl ⟨f, hf, key, hat, rfl⟩), rfl, rfl⟩

/-- The document that is stored is read back. -/
theorem IsBatch.document_eq {id : Bytes} {ws : List Write}
    (h : IsBatch codec c doc indexes value id (some (doc.to_msgpack codec)) ws)
    (hmem : c.name_ ∈ e.columnFamilies_) :
    (e.applyAll ws).document codec c.name_ id = some doc := by
  rw [StorageEngine.document, h.lookup_document hmem, Option.bind_some,
    Document.from_msgpack_to_msgpack]
  rfl

/-- **A document call that completes** stores a document, or removes the one under an
id. -/
theorem completes_cases {c : Collection} {call : DocumentCall} {ws : List Write}
    (h : call.Completes codec c e ws) :
    (∃ doc, call.stored codec c e = some doc ∧
      storeSteps codec c doc (e.getIndexNames c.name_) = ws.map .ok) ∨
    (∃ doc id, call = .delete id ∧ e.document codec c.name_ id = some doc ∧
      removeSteps codec c doc id (e.getIndexNames c.name_) = ws.map .ok) := by
  cases call with
  | delete id =>
    obtain ⟨doc, hdoc, hsteps⟩ := Option.map_eq_some_iff.mp h.1
    exact Or.inr ⟨doc, id, rfl, hdoc, hsteps⟩
  | _ =>
    obtain ⟨doc, hdoc, hsteps⟩ := Option.map_eq_some_iff.mp h.1
    exact Or.inl ⟨doc, hdoc, hsteps⟩

end DocumentCall

/-! ### Families that come and go -/

namespace StorageEngine

variable {n m key : Bytes}

/-- An empty family that is added holds nothing. -/
theorem lookup_insert_empty (hn : n ∉ e.columnFamilies_) (hdb : e.db_ = .opened) :
    (e.withFamilies (e.columnFamilies_.insert n ∅)).lookup m key = e.lookup m key := by
  by_cases hm : n = m
  · subst hm
    have hnone : e.contents n = none := by
      rwa [mem_iff_contents, Option.not_isSome_iff_eq_none] at hn
    have hsome : (e.withFamilies (e.columnFamilies_.insert n ∅)).contents n = some ∅ := by
      rw [contents, columnFamilies_withFamilies hdb, Std.ExtTreeMap.getElem?_insert_self]
    rw [lookup, lookup, hnone, hsome]
    simp
  · rw [lookup, lookup, contents_insert hm]

theorem mem_insert_empty (hdb : e.db_ = .opened) :
    m ∈ (e.withFamilies (e.columnFamilies_.insert n ∅)).columnFamilies_ ↔
      m = n ∨ m ∈ e.columnFamilies_ := by
  rw [columnFamilies_withFamilies hdb, Std.ExtTreeMap.mem_insert, Std.LawfulEqCmp.compare_eq_iff_eq,
    eq_comm]

/-- A family that is dropped holds nothing any more. -/
theorem lookup_erase (hn : n ∈ e.columnFamilies_) :
    (e.withFamilies (e.columnFamilies_.erase n)).lookup m key =
      if m = n then none else e.lookup m key := by
  have hdb := opened_of_mem hn
  split_ifs with hm
  · subst hm
    rw [lookup, contents, columnFamilies_withFamilies hdb, Std.ExtTreeMap.getElem?_erase_self]
    rfl
  · rw [lookup, lookup, contents_erase fun h => hm h.symm]

theorem mem_erase_family (hn : n ∈ e.columnFamilies_) :
    m ∈ (e.withFamilies (e.columnFamilies_.erase n)).columnFamilies_ ↔
      m ≠ n ∧ m ∈ e.columnFamilies_ := by
  rw [columnFamilies_withFamilies (opened_of_mem hn), Std.ExtTreeMap.mem_erase, ne_eq, ne_eq,
    Std.LawfulEqCmp.compare_eq_iff_eq, eq_comm]

theorem Created.lookup_eq (h : e.Created n e') : e'.lookup m key = e.lookup m key := by
  rcases h with rfl | ⟨hn, hdb, rfl⟩
  · rfl
  · exact lookup_insert_empty hn hdb

theorem Created.mem_iff (h : e.Created n e') :
    m ∈ e.columnFamilies_ → m ∈ e'.columnFamilies_ := by
  intro hm
  rcases h with rfl | ⟨-, hdb, rfl⟩
  · exact hm
  · exact (mem_insert_empty hdb).mpr (Or.inr hm)

/-- What a cursor walks is what is stored. -/
theorem mem_cursor {value : Bytes} : (key, value) ∈ e.cursor n ↔ e.lookup n key = some value := by
  rw [cursor, lookup, contents]
  rcases e.columnFamilies_[n]? with _ | cf
  · simp
  · simp only [Option.bind_some]
    exact Std.ExtTreeMap.mem_toList_iff_getElem?_eq_some

/-- What a cursor walks is told by what is under each key. -/
theorem cursor_congr (h : ∀ key, e'.lookup n key = e.lookup n key) : e'.cursor n = e.cursor n := by
  have hcursor (e : StorageEngine) : e.cursor n = ((e.contents n).getD ∅).toList := by
    rw [cursor, contents]
    cases e.columnFamilies_[n]? <;> rfl
  have hlookup (e : StorageEngine) (key : Bytes) :
      e.lookup n key = ((e.contents n).getD ∅)[key]? := by
    rw [lookup]
    cases e.contents n <;> rfl
  rw [hcursor, hcursor]
  congr 1
  ext1 key
  rw [← hlookup, ← hlookup, h]

/-- The keys a cursor walks are those that are in use. -/
theorem mem_keys_cursor :
    key ∈ (e.cursor n).map Prod.fst ↔ (e.lookup n key).isSome = true := by
  rw [Option.isSome_iff_exists, List.mem_map]
  constructor
  · rintro ⟨x, hx, rfl⟩
    exact ⟨x.2, mem_cursor.mp hx⟩
  · rintro ⟨value, hvalue⟩
    exact ⟨(key, value), mem_cursor.mpr hvalue, rfl⟩

/-- **A cursor walks in ascending order**, each key once. -/
theorem pairwise_cursor (e : StorageEngine) (n : Bytes) :
    ((e.cursor n).map Prod.fst).Pairwise (· < ·) := by
  rw [cursor, List.pairwise_map]
  split
  · exact .nil
  · exact Std.ExtTreeMap.ordered_keys_toList.imp fun h => Bytes.compare_eq_lt.mp h

end StorageEngine

/-! ### An index that is built -/

namespace Collection

variable {c : Collection} {index n key : Bytes}

/-- The writes an index is built with are of the entries of the documents. -/
theorem ok_mem_buildSteps {x : Write} :
    .ok x ∈ buildSteps codec c index (e.cursor c.name_) ↔
      ∃ id doc key, e.document codec c.name_ id = some doc ∧ doc.EntryAt codec index key ∧
        x = ⟨c.getIndexCfName index, key, some doc.id_⟩ := by
  rw [buildSteps, List.mem_filterMap]
  constructor
  · rintro ⟨⟨id, serialized⟩, hentry, hstep⟩
    rw [buildStep] at hstep
    rcases hd : Document.from_msgpack codec serialized with exn | doc
    · simp [hd] at hstep
    · simp only [hd, Option.ite_none_right_eq_some, Option.some.injEq] at hstep
      obtain ⟨hfield, hkey⟩ := hstep
      rcases hk : entryKey codec doc index with exn | key
      · simp [hk, Except.map] at hkey
      · rw [hk] at hkey
        refine ⟨id, doc, key, ?_, entryAt_iff.mpr ⟨hfield, hk⟩, (Except.ok.inj hkey).symm⟩
        rw [StorageEngine.document, StorageEngine.mem_cursor.mp hentry, Option.bind_some, hd]
        rfl
  · rintro ⟨id, doc, key, hdoc, hentry, rfl⟩
    obtain ⟨serialized, hlookup, hdecode⟩ := Option.bind_eq_some_iff.mp hdoc
    obtain ⟨hfield, hkey⟩ := entryAt_iff.mp hentry
    refine ⟨(id, serialized), StorageEngine.mem_cursor.mpr hlookup, ?_⟩
    rcases hd : Document.from_msgpack codec serialized with exn | doc'
    · simp [hd, Except.toOption] at hdecode
    · obtain rfl : doc' = doc := by simpa [hd, Except.toOption] using hdecode
      simp [buildStep, hd, hfield, hkey, Except.map]

theorem mem_of_buildSteps {ws : List Write} {x : Write}
    (h : buildSteps codec c index (e.cursor c.name_) = ws.map .ok) : x ∈ ws ↔
      ∃ id doc key, e.document codec c.name_ id = some doc ∧ doc.EntryAt codec index key ∧
        x = ⟨c.getIndexCfName index, key, some doc.id_⟩ := by
  rw [← DocumentCall.writesOf_map_ok ws, ← h, DocumentCall.mem_writesOf, ok_mem_buildSteps]

/-- Where an index is built, every document with the field has an entry. -/
theorem exists_entryAt_of_buildSteps {ws : List Write} {id : Bytes} {doc : Document}
    (h : buildSteps codec c index (e.cursor c.name_) = ws.map .ok)
    (hdoc : e.document codec c.name_ id = some doc) (hfield : hasIndexField doc.data_ index = true) :
    ∃ key, doc.EntryAt codec index key := by
  obtain ⟨serialized, hlookup, hdecode⟩ := Option.bind_eq_some_iff.mp hdoc
  rcases hd : Document.from_msgpack codec serialized with exn | doc'
  · simp [hd, Except.toOption] at hdecode
  · obtain rfl : doc' = doc := by simpa [hd, Except.toOption] using hdecode
    rcases hk : entryKey codec doc' index with exn | key
    · have hmem : .error exn ∈ buildSteps codec c index (e.cursor c.name_) := by
        rw [buildSteps, List.mem_filterMap]
        refine ⟨(id, serialized), StorageEngine.mem_cursor.mpr hlookup, ?_⟩
        simp [buildStep, hd, hfield, hk, Except.map]
      rw [h] at hmem
      obtain ⟨x, -, hx⟩ := List.mem_map.mp hmem
      exact absurd hx (by simp)
    · exact ⟨key, entryAt_iff.mpr ⟨hfield, hk⟩⟩

/-- **What building an index does**: its family is there, other families and their
entries are as they were, and its own entries are those it had and those of the
documents. -/
structure Built (codec : Codec) (c : Collection) (index : Bytes) (e e' : StorageEngine) :
    Prop where
  /-- No family goes. -/
  mem_of_mem : ∀ {n}, n ∈ e.columnFamilies_ → n ∈ e'.columnFamilies_
  /-- No family comes but the index. -/
  mem_or_eq : ∀ {n}, n ∈ e'.columnFamilies_ → n ∈ e.columnFamilies_ ∨ n = c.getIndexCfName index
  /-- Other families hold what they held. -/
  lookup_other : ∀ {n key}, n ≠ c.getIndexCfName index → e'.lookup n key = e.lookup n key
  /-- An entry is an old one or the one of a document. -/
  entry_cases : ∀ key, e'.lookup (c.getIndexCfName index) key =
      e.lookup (c.getIndexCfName index) key ∨
    ∃ id doc, e.document codec c.name_ id = some doc ∧ doc.EntryAt codec index key ∧
      e'.lookup (c.getIndexCfName index) key = some doc.id_
  /-- Every document with the field has a key, and that key is of a document. -/
  exists_entry : ∀ {id doc}, e.document codec c.name_ id = some doc →
    hasIndexField doc.data_ index = true → ∃ key, doc.EntryAt codec index key ∧
      ∃ id' doc', e.document codec c.name_ id' = some doc' ∧ doc'.EntryAt codec index key ∧
        e'.lookup (c.getIndexCfName index) key = some doc'.id_

/-- An index that is created is built. -/
theorem built_of_okStep (h : (Operation.createIndex c index).OkStep codec e e') :
    Built codec c index e e' := by
  obtain ⟨e₁, ws, hcreated, hsteps, hmem, rfl⟩ := Operation.createIndex_okStep h
  have hdocument (id : Bytes) : e₁.document codec c.name_ id = e.document codec c.name_ id := by
    rw [StorageEngine.document, StorageEngine.document, hcreated.lookup_eq]
  have hws {x : Write} : x ∈ ws ↔ ∃ id doc key, e.document codec c.name_ id = some doc ∧
      doc.EntryAt codec index key ∧ x = ⟨c.getIndexCfName index, key, some doc.id_⟩ := by
    simp only [mem_of_buildSteps hsteps, hdocument]
  have hwritten {x : Write} (hx : x ∈ ws) : ∃ id doc, e.document codec c.name_ id = some doc ∧
      doc.EntryAt codec index x.key ∧
      (e₁.applyAll ws).lookup (c.getIndexCfName index) x.key = some doc.id_ := by
    obtain ⟨y, hy, hfamily, hkey, hlookup⟩ :=
      StorageEngine.exists_lookup_applyAll (e := e₁) hx (hmem x hx)
    obtain ⟨_, _, _, -, -, rfl⟩ := hws.mp hx
    obtain ⟨id', doc', key', hdoc', hentry', rfl⟩ := hws.mp hy
    exact ⟨id', doc', hdoc', hkey ▸ hentry', hlookup⟩
  refine ⟨fun hn => ?_, fun hn => ?_, fun hn => ?_, fun key => ?_, fun {id doc} hdoc hfield => ?_⟩
  · exact (StorageEngine.mem_applyAll ws).mpr (hcreated.mem_iff hn)
  · rw [StorageEngine.mem_applyAll] at hn
    rcases hcreated with rfl | ⟨-, hdb, rfl⟩
    · exact Or.inl hn
    · exact ((StorageEngine.mem_insert_empty hdb).mp hn).symm
  · rw [StorageEngine.lookup_applyAll_of_forall, hcreated.lookup_eq]
    intro x hx hfamily _
    obtain ⟨_, _, _, -, -, rfl⟩ := hws.mp hx
    exact hn hfamily.symm
  · by_cases hkey : ∃ x ∈ ws, x.key = key
    · obtain ⟨x, hx, rfl⟩ := hkey
      exact Or.inr (hwritten hx)
    · rw [StorageEngine.lookup_applyAll_of_forall fun x hx _ h => hkey ⟨x, hx, h⟩,
        hcreated.lookup_eq]
      exact Or.inl rfl
  · rw [← hdocument] at hdoc
    obtain ⟨key, hentry⟩ := exists_entryAt_of_buildSteps hsteps hdoc hfield
    rw [hdocument] at hdoc
    exact ⟨key, hentry, hwritten (hws.mpr ⟨id, doc, key, hdoc, hentry, rfl⟩)⟩

end Collection

/-! ### Ids -/

/-- **A stored document decodes, and the id in it is the key it is stored under**, in the
families that are no indexes. -/
def IdsAgree (codec : Codec) (e : StorageEngine) : Prop :=
  ∀ c id serialized, ¬index_delimiter_ <:+: c → e.lookup c id = some serialized →
    ∃ doc, Document.from_msgpack codec serialized = .ok doc ∧ doc.id_ = id

theorem StorageEngine.lookup_fresh (n key : Bytes) : fresh.lookup n key = none := by
  rw [lookup, contents]
  change ((Std.ExtTreeMap.empty.insert kDefaultColumnFamilyName ∅ : ColumnFamilies)[n]?).bind _ = _
  rw [Std.ExtTreeMap.getElem?_insert]
  split_ifs
  · exact Std.ExtTreeMap.getElem?_empty
  · rfl

theorem idsAgree_fresh : IdsAgree codec .fresh := by
  intro c id serialized _ hlookup
  rw [StorageEngine.lookup_fresh] at hlookup
  exact absurd hlookup (by simp)

/-- The family of an index is not that of a name without the delimiter. -/
theorem ne_indexFamily_of_not_delimited {n : Bytes} (hn : ¬index_delimiter_ <:+: n) (c f : Bytes) :
    n ≠ indexFamily c f :=
  fun h => hn (h ▸ delimiter_infix_indexFamily c f)

/-- Operations keep ids and keys in agreement. -/
theorem IdsAgree.okStep {op : Operation} (h : IdsAgree codec e) (hstep : op.OkStep codec e e') :
    IdsAgree codec e' := by
  intro n id serialized hn hlookup
  cases op with
  | createCollection name =>
    obtain ⟨hname, hdb, rfl⟩ := Operation.createCollection_okStep hstep
    rw [StorageEngine.lookup_insert_empty hname hdb] at hlookup
    exact h n id serialized hn hlookup
  | document c call =>
    obtain ⟨ws, hcomplete, rfl⟩ := Operation.document_okStep hstep
    have hother (doc : Document) (indexes : List Bytes) (value : Option Bytes) (id' : Bytes)
        (last : Option Bytes) (hbatch : DocumentCall.IsBatch codec c doc indexes value id' last ws)
        (hne : n = c.name_ → id ≠ id') : e.lookup n id = some serialized := by
      rw [← hlookup]
      by_cases hc : n = c.name_
      · subst hc
        exact (hbatch.lookup_document_of_ne (hne rfl)).symm
      · exact (hbatch.lookup_other hc fun f _ => ne_indexFamily_of_not_delimited hn _ f).symm
    rcases DocumentCall.completes_cases hcomplete with ⟨doc, -, hsteps⟩ | ⟨doc, id', -, hdoc, hsteps⟩
    · have hbatch := DocumentCall.batch_of_steps hsteps
      by_cases hid : n = c.name_ ∧ id = doc.id_
      · obtain ⟨rfl, rfl⟩ := hid
        have hmem := hcomplete.2 _ ((hbatch _).mpr (Or.inr rfl))
        rw [hbatch.lookup_document hmem] at hlookup
        obtain rfl := Option.some.inj hlookup
        exact ⟨doc, Document.from_msgpack_to_msgpack codec doc, rfl⟩
      · exact h n id serialized hn (hother _ _ _ _ _ hbatch fun hc hid' => hid ⟨hc, hid'⟩)
    · have hbatch := DocumentCall.batch_of_steps hsteps
      by_cases hid : n = c.name_ ∧ id = id'
      · obtain ⟨rfl, rfl⟩ := hid
        have hmem := hcomplete.2 _ ((hbatch _).mpr (Or.inr rfl))
        rw [hbatch.lookup_document hmem] at hlookup
        exact absurd hlookup (by simp)
      · exact h n id serialized hn (hother _ _ _ _ _ hbatch fun hc hid' => hid ⟨hc, hid'⟩)
  | createIndex c index =>
    have hbuilt := Collection.built_of_okStep hstep
    rw [hbuilt.lookup_other (ne_indexFamily_of_not_delimited hn _ _)] at hlookup
    exact h n id serialized hn hlookup
  | deleteIndex c index =>
    obtain ⟨hmem, rfl⟩ := Operation.deleteIndex_okStep hstep
    have hne : n ≠ c.getIndexCfName index := ne_indexFamily_of_not_delimited hn c.name_ index
    rw [StorageEngine.lookup_erase hmem, if_neg hne] at hlookup
    exact h n id serialized hn hlookup

end AnuDB
