import AnuDB.Texts

/-!
# All or nothing?

`createIndex` adds the family of the index, and then an entry for each document. It looks at no
status of the first step, and takes nothing back when the second one fails: where a document does
not decode, a value has no key, or RocksDB refuses an entry, the index is there with the entries
of the documents before it. Where the family is refused, a collection without the field gets
an OK and no index. And where the iterator of the cursor meets an error, the documents behind it
are passed over, and the status is OK too.

So creating an index succeeds completely or leaves no index
(`AnuDB.Collection.AllOrNothing`) exactly if the entries are all written where the family is
added, every document then has its own entry, and there is something to fail at where the family
is refused (`AnuDB.Collection.allOrNothing_iff`).
-/

namespace AnuDB

open Effect

namespace Collection

variable {codec : Codec} {c : Collection} {index : Bytes} {e e' : StorageEngine}
  {r : Stream' (Option Bytes)} {cut : Option ℕ}

/-! ### What an index is filled with -/

/-- The documents with a field, in the order a cursor meets them. -/
def bearers (codec : Codec) (index : Bytes) (entries : List (Bytes × Bytes)) : List Document :=
  entries.filterMap fun entry =>
    (Document.from_msgpack codec entry.2).toOption.filter fun doc => hasIndexField doc.data_ index

/-- **Nothing stops the entries from being written**: the documents the cursor walks decode, their
values have keys, and RocksDB refuses none of the writes, which come after the creation of the
family and of the cursor. -/
structure Fills (codec : Codec) (c : Collection) (index : Bytes) (e : StorageEngine)
    (refusals : Stream' (Option Bytes)) (cut : Option ℕ) : Prop where
  /-- Every document decodes. -/
  decodes : ∀ entry ∈ e.walk c.name_ cut, ∃ doc, Document.from_msgpack codec entry.2 = .ok doc
  /-- Every document with the field has a key. -/
  keyed : ∀ doc ∈ bearers codec index (e.walk c.name_ cut), ∃ key, doc.EntryAt codec index key
  /-- No write is refused. -/
  accepted : ∀ i < (bearers codec index (e.walk c.name_ cut)).length, refusals.get (i + 2) = none

/-- **No two documents share a key**, unless they have one id. -/
def KeysApart (codec : Codec) (c : Collection) (index : Bytes) (e : StorageEngine) : Prop :=
  ∀ id doc id' doc' key, e.document codec c.name_ id = some doc →
    e.document codec c.name_ id' = some doc' → doc.EntryAt codec index key →
    doc'.EntryAt codec index key → doc.id_ = doc'.id_

/-- **Every document with the field gets its own entry**, if those the cursor walks get theirs: no
document that is walked has its key and another id; and one that is walked has the key, or the
entry has been in the index before. -/
def Covers (codec : Codec) (c : Collection) (index : Bytes) (e : StorageEngine)
    (cut : Option ℕ) : Prop :=
  ∀ id doc, e.document codec c.name_ id = some doc → hasIndexField doc.data_ index = true →
    ∃ key, doc.EntryAt codec index key ∧
      (∀ doc' ∈ bearers codec index (e.walk c.name_ cut), doc'.EntryAt codec index key →
        doc'.id_ = doc.id_) ∧
      ((∃ doc' ∈ bearers codec index (e.walk c.name_ cut), doc'.EntryAt codec index key) ∨
        e.lookup (c.getIndexCfName index) key = some doc.id_)

/-- Where the documents decode, the steps are those of the documents with the field. -/
theorem buildSteps_eq {entries : List (Bytes × Bytes)}
    (h : ∀ entry ∈ entries, ∃ doc, Document.from_msgpack codec entry.2 = .ok doc) :
    buildSteps codec c index entries = (bearers codec index entries).map fun doc =>
      (entryKey codec doc index).map fun key => ⟨c.getIndexCfName index, key, some doc.id_⟩ := by
  rw [bearers, List.map_filterMap, buildSteps]
  refine List.filterMap_congr fun entry hentry => ?_
  obtain ⟨doc, hdoc⟩ := h entry hentry
  rw [buildStep, hdoc]
  simp only [Except.toOption, Option.filter]
  by_cases hfield : hasIndexField doc.data_ index = true
  · simp [hfield]
  · simp [hfield]

theorem mem_bearers {doc : Document} : doc ∈ bearers codec index (e.cursor c.name_) ↔
    ∃ id, e.document codec c.name_ id = some doc ∧ hasIndexField doc.data_ index = true := by
  rw [bearers, List.mem_filterMap]
  constructor
  · rintro ⟨⟨id, serialized⟩, hentry, hdoc⟩
    obtain ⟨hdecode, hfield⟩ := Option.filter_eq_some_iff.mp hdoc
    refine ⟨id, ?_, hfield⟩
    rw [StorageEngine.document, StorageEngine.mem_cursor.mp hentry]
    exact hdecode
  · rintro ⟨id, hdoc, hfield⟩
    obtain ⟨serialized, hlookup, hdecode⟩ := Option.bind_eq_some_iff.mp hdoc
    exact ⟨(id, serialized), StorageEngine.mem_cursor.mpr hlookup,
      Option.filter_eq_some_iff.mpr ⟨hdecode, hfield⟩⟩

theorem exists_document_of_mem_bearers {doc : Document}
    (h : doc ∈ bearers codec index (e.walk c.name_ cut)) :
    ∃ id, e.document codec c.name_ id = some doc ∧ hasIndexField doc.data_ index = true := by
  obtain ⟨entry, hentry, hdoc⟩ := List.mem_filterMap.mp h
  exact mem_bearers.mp (List.mem_filterMap.mpr
    ⟨entry, StorageEngine.mem_cursor_of_mem_walk hentry, hdoc⟩)

/-- Steps that are all writes come from documents that decode. -/
theorem decodes_of_buildSteps {entries : List (Bytes × Bytes)} {ws : List Write}
    (h : buildSteps codec c index entries = ws.map .ok) {entry : Bytes × Bytes}
    (hentry : entry ∈ entries) : ∃ doc, Document.from_msgpack codec entry.2 = .ok doc := by
  rcases hdoc : Document.from_msgpack codec entry.2 with exn | doc
  · have hmem : .error exn ∈ buildSteps codec c index entries :=
      List.mem_filterMap.mpr ⟨entry, hentry, by rw [buildStep, hdoc]⟩
    rw [h] at hmem
    obtain ⟨x, -, hx⟩ := List.mem_map.mp hmem
    cases hx
  · exact ⟨doc, rfl⟩

theorem bearers_of_buildSteps {entries : List (Bytes × Bytes)} {ws : List Write}
    (h : buildSteps codec c index entries = ws.map .ok) :
    (bearers codec index entries).map (fun doc =>
      (entryKey codec doc index).map fun key => ⟨c.getIndexCfName index, key, some doc.id_⟩) =
        ws.map .ok :=
  (buildSteps_eq fun _ hentry => decodes_of_buildSteps h hentry).symm.trans h

theorem length_of_buildSteps {entries : List (Bytes × Bytes)} {ws : List Write}
    (h : buildSteps codec c index entries = ws.map .ok) :
    ws.length = (bearers codec index entries).length := by
  have hlength := congrArg List.length (bearers_of_buildSteps h)
  rw [List.length_map, List.length_map] at hlength
  exact hlength.symm

/-- The writes are the entries of the documents that are walked. -/
theorem mem_writes_iff {entries : List (Bytes × Bytes)} {ws : List Write}
    (h : buildSteps codec c index entries = ws.map .ok) {x : Write} :
    x ∈ ws ↔ ∃ doc ∈ bearers codec index entries, ∃ key, doc.EntryAt codec index key ∧
      x = ⟨c.getIndexCfName index, key, some doc.id_⟩ := by
  have hmem : x ∈ ws ↔ Except.ok x ∈ (ws.map .ok : List (Except Exn Write)) := by simp
  rw [hmem, ← bearers_of_buildSteps h, List.mem_map]
  refine exists_congr fun doc => and_congr_right fun hdoc => ?_
  obtain ⟨entry, -, hbearer⟩ := List.mem_filterMap.mp hdoc
  have hfield : hasIndexField doc.data_ index = true := (Option.filter_eq_some_iff.mp hbearer).2
  simp only [entryAt_iff, and_iff_right hfield]
  rcases entryKey codec doc index with exn | key
  · simp [Except.map]
  · simp only [Except.map, Except.ok.injEq, exists_eq_left']
    exact eq_comm

/-- A document that is walked has a key where the steps are all writes. -/
theorem keyed_of_buildSteps {entries : List (Bytes × Bytes)} {ws : List Write}
    (h : buildSteps codec c index entries = ws.map .ok) {doc : Document}
    (hdoc : doc ∈ bearers codec index entries) : ∃ key, doc.EntryAt codec index key := by
  obtain ⟨entry, -, hbearer⟩ := List.mem_filterMap.mp hdoc
  have hfield : hasIndexField doc.data_ index = true := (Option.filter_eq_some_iff.mp hbearer).2
  obtain ⟨x, -, hx⟩ := List.mem_map.mp
    (bearers_of_buildSteps h ▸ List.mem_map_of_mem (f := fun doc : Document =>
      (entryKey codec doc index).map fun key =>
        (⟨c.getIndexCfName index, key, some doc.id_⟩ : Write)) hdoc)
  rcases hkey : entryKey codec doc index with exn | key
  · rw [hkey] at hx
    cases hx
  · exact ⟨key, entryAt_iff.mpr ⟨hfield, hkey⟩⟩

/-- **An index is filled** exactly if its steps are writes that are not refused. -/
theorem fills_iff : Fills codec c index e r cut ↔ ∃ ws : List Write,
    buildSteps codec c index (e.walk c.name_ cut) = ws.map .ok ∧
      ∀ i < ws.length, r.get (i + 2) = none := by
  constructor
  · rintro ⟨hdecodes, hkeyed, haccepted⟩
    have hwrites : ∀ step ∈ buildSteps codec c index (e.walk c.name_ cut), ∃ x, step = .ok x := by
      rw [buildSteps_eq hdecodes, List.forall_mem_map]
      intro doc hdoc
      obtain ⟨key, hat⟩ := hkeyed doc hdoc
      exact ⟨_, by rw [(entryAt_iff.mp hat).2]; rfl⟩
    obtain ⟨ws, hws⟩ := exists_eq_map_ok_iff.mpr hwrites
    exact ⟨ws, hws, fun i hi => haccepted i (by rwa [length_of_buildSteps hws] at hi)⟩
  · rintro ⟨ws, hws, haccepted⟩
    refine ⟨fun entry => decodes_of_buildSteps hws, fun doc => keyed_of_buildSteps hws,
      fun i hi => haccepted i ?_⟩
    rwa [length_of_buildSteps hws]

/-- An index is filled with nothing exactly if every document that is walked decodes and is without
the field. -/
theorem fills_nil_iff :
    Fills codec c index e r cut ∧ bearers codec index (e.walk c.name_ cut) = [] ↔
      ∀ entry ∈ e.walk c.name_ cut, ∃ doc, Document.from_msgpack codec entry.2 = .ok doc ∧
        hasIndexField doc.data_ index = false := by
  constructor
  · rintro ⟨hfills, hnil⟩ entry hentry
    obtain ⟨doc, hdoc⟩ := hfills.decodes entry hentry
    refine ⟨doc, hdoc, Bool.eq_false_iff.mpr fun hfield => ?_⟩
    have hmem : doc ∈ bearers codec index (e.walk c.name_ cut) :=
      List.mem_filterMap.mpr ⟨entry, hentry, by simp [hdoc, Except.toOption, hfield]⟩
    rw [hnil] at hmem
    exact List.not_mem_nil hmem
  · intro h
    have hnil : bearers codec index (e.walk c.name_ cut) = [] := by
      refine List.filterMap_eq_nil_iff.mpr fun entry hentry => ?_
      obtain ⟨doc, hdoc, hfield⟩ := h entry hentry
      simp [hdoc, Except.toOption, hfield]
    refine ⟨⟨fun entry hentry => ?_, fun doc hdoc => ?_, fun i hi => ?_⟩, hnil⟩
    · exact (h entry hentry).imp fun doc hdoc => hdoc.1
    · exact absurd hdoc (by simp [hnil])
    · exact absurd hi (by simp [hnil])

/-- Otherwise there is a document to fail at, or one that has the field. -/
theorem not_fills_nil_iff :
    ¬(Fills codec c index e r cut ∧ bearers codec index (e.walk c.name_ cut) = []) ↔
      ∃ entry ∈ e.walk c.name_ cut, ∀ doc, Document.from_msgpack codec entry.2 = .ok doc →
        hasIndexField doc.data_ index = true := by
  simp only [fills_nil_iff, not_forall, not_exists, not_and, Bool.not_eq_false, exists_prop]

/-! ### What an index holds that is filled -/

section Filled

variable {e₁ : StorageEngine} {ws : List Write}
  (hws : buildSteps codec c index (e.walk c.name_ cut) = ws.map .ok)
  (hfamilies : ∀ x ∈ ws, x.family ∈ e₁.columnFamilies_)

include hws hfamilies

/-- A key of a document that is walked is that of one of them. -/
theorem exists_lookup_filled {doc : Document} {key : Bytes}
    (hdoc : doc ∈ bearers codec index (e.walk c.name_ cut)) (hat : doc.EntryAt codec index key) :
    ∃ doc' ∈ bearers codec index (e.walk c.name_ cut), doc'.EntryAt codec index key ∧
      (e₁.applyAll ws).lookup (c.getIndexCfName index) key = some doc'.id_ := by
  have hx : (⟨c.getIndexCfName index, key, some doc.id_⟩ : Write) ∈ ws :=
    (mem_writes_iff hws).mpr ⟨doc, hdoc, key, hat, rfl⟩
  obtain ⟨y, hy, -, hkey, hlookup⟩ := StorageEngine.exists_lookup_applyAll (e := e₁) hx (hfamilies _ hx)
  obtain ⟨doc', hdoc', key', hat', rfl⟩ := (mem_writes_iff hws).mp hy
  obtain rfl : key' = key := hkey
  exact ⟨doc', hdoc', hat', hlookup⟩

omit hfamilies in
/-- Another key is as it was. -/
theorem lookup_filled_of_not {key : Bytes}
    (h : ¬∃ doc ∈ bearers codec index (e.walk c.name_ cut), doc.EntryAt codec index key) :
    (e₁.applyAll ws).lookup (c.getIndexCfName index) key =
      e₁.lookup (c.getIndexCfName index) key := by
  refine StorageEngine.lookup_applyAll_of_forall fun x hx _ hkey => h ?_
  obtain ⟨doc, hdoc, key', hat, rfl⟩ := (mem_writes_iff hws).mp hx
  exact ⟨doc, hdoc, hkey ▸ hat⟩

/-- **What an index holds that is filled** is of every document, exactly if every document is
covered. -/
theorem entries_iff_covers (hlookup : ∀ n key, e₁.lookup n key = e.lookup n key) :
    (∀ id doc, (e₁.applyAll ws).document codec c.name_ id = some doc →
      hasIndexField doc.data_ index = true → ∃ key, doc.EntryAt codec index key ∧
        (e₁.applyAll ws).lookup (c.getIndexCfName index) key = some doc.id_) ↔
      Covers codec c index e cut := by
  have hdocument (id : Bytes) :
      (e₁.applyAll ws).document codec c.name_ id = e.document codec c.name_ id := by
    rw [StorageEngine.document, StorageEngine.document, StorageEngine.lookup_applyAll_of_forall,
      hlookup]
    intro x hx hfamily _
    obtain ⟨_, _, _, _, rfl⟩ := (mem_writes_iff hws).mp hx
    exact indexFamily_ne c.name_ index hfamily
  simp only [hdocument]
  constructor
  · intro hentries id doc hdoc hfield
    obtain ⟨key, hat, hentry⟩ := hentries id doc hdoc hfield
    refine ⟨key, hat, fun doc' hdoc' hat' => ?_, ?_⟩
    · -- a document that is walked is there, and has its own entry under the key too
      obtain ⟨id', hdoc', hfield'⟩ := exists_document_of_mem_bearers hdoc'
      obtain ⟨key', hat'', hentry'⟩ := hentries id' doc' hdoc' hfield'
      rw [hat''.unique hat', hentry] at hentry'
      exact (Option.some.inj hentry').symm
    · refine or_iff_not_imp_left.mpr fun hnone => ?_
      rw [← hentry, lookup_filled_of_not hws hnone, hlookup]
  · intro hcovers id doc hdoc hfield
    obtain ⟨key, hat, hsame, hwalked⟩ := hcovers id doc hdoc hfield
    refine ⟨key, hat, ?_⟩
    by_cases hsome : ∃ doc' ∈ bearers codec index (e.walk c.name_ cut), doc'.EntryAt codec index key
    · obtain ⟨doc', hdoc', hat'⟩ := hsome
      obtain ⟨doc'', hdoc'', hat'', hentry⟩ := exists_lookup_filled hws hfamilies hdoc' hat'
      rw [hentry, hsame doc'' hdoc'' hat'']
    · rw [lookup_filled_of_not hws hsome, hlookup]
      exact hwalked.resolve_left hsome

end Filled

/-! ### What a run of `createIndex` does -/

/-- An engine call goes through unless it is refused. -/
theorem fates_refusing_eq_ok_iff {i : ℕ} :
    (World.refusing e r).fates.get i = .ok ↔ r.get i = none := by
  change (r.get i).elim Fate.ok Fate.fail = .ok ↔ _
  cases r.get i <;> simp

theorem run_buildIndex_refusing : (c.buildIndex codec cut index).run (.refusing e r) =
    (Engine.writes (buildSteps codec c index (e.walk c.name_ cut))).run (.refusing e r.tail) := by
  rw [buildIndex, Engine.cursor, Engine.run_call_bind_refusing, indexEntries_eq]
  rfl

/-- The status of building an index is OK exactly if every step landed, and what has landed
stays. -/
theorem run_fill (hcodec : codec.ThrowsText) (cut : Option ℕ) (index : Bytes) (e : StorageEngine)
    (r : Stream' (Option Bytes)) : ∃ status w' ws,
    (Prog.tryCatch (c.buildIndex codec cut index) fun exn => Prog.ofExcept (corruptionOf exn)).run
      World.handle (.refusing e r) = (.ret status, w') ∧
    (status.ok = true ↔ ∃ ws : List Write,
      buildSteps codec c index (e.walk c.name_ cut) = ws.map .ok ∧
      (∀ x ∈ ws, x.family ∈ e.columnFamilies_) ∧ ∀ i < ws.length, r.get (i + 1) = none) ∧
    w'.engine = e.applyAll ws ∧ (∀ x ∈ ws, x.family ∈ e.columnFamilies_) ∧
    (status.ok = true → buildSteps codec c index (e.walk c.name_ cut) = ws.map .ok) := by
  set steps := buildSteps codec c index (e.walk c.name_ cut) with hsteps
  have hbuild : Prog.run World.handle (c.buildIndex codec cut index) (.refusing e r) =
      (Engine.writes steps).run (.refusing e r.tail) := run_buildIndex_refusing
  have hengine := Engine.run_writes_engine (w := .refusing e r.tail) steps
  have hlanded := Engine.run_writes_ok_iff (w := .refusing e r.tail) steps
  have hok := hlanded
  rw [StorageEngine.landed_eq_iff, ← hbuild] at hok
  simp only [fates_refusing_eq_ok_iff] at hok
  rw [← hbuild] at hengine hlanded
  set landed := (World.refusing e r.tail).engine.landed (World.refusing e r.tail).fates steps
    with hset
  have hfamilies : ∀ x ∈ landed, x.family ∈ e.columnFamilies_ := fun x hx =>
    StorageEngine.mem_of_mem_landed hx
  rcases hrun : Prog.run World.handle (c.buildIndex codec cut index) (.refusing e r) with
    ⟨status | exn | _, w'⟩
  · rw [hrun] at hengine hok hlanded
    refine ⟨status, w', landed, by rw [Prog.run_tryCatch, hrun], Iff.trans ?_ hok, hengine,
      hfamilies, fun h => ?_⟩
    · simp
    · exact (hlanded.mp ⟨status, rfl, h⟩).symm
  · rw [hrun] at hengine hok
    rcases exn with what | u
    · -- an exception is caught, and what it is caught as is not OK
      refine ⟨_, w', landed, by rw [Prog.run_tryCatch, hrun]; rfl, Iff.trans ?_ hok, hengine,
        hfamilies, fun h => ?_⟩
      · simp
      · exact absurd h (by simp)
    · have hraise := raises_buildIndex (c := c) (E := fun _ => False) hcodec cut index
      have hthrown : Prog.run World.handle (Prog.tryCatch (c.buildIndex codec cut index)
          fun exn => Prog.ofExcept (corruptionOf exn)) (.refusing e r) =
            (.raise (.undefined u), w') := by
        rw [Prog.run_tryCatch, hrun]
        rfl
      exact (hraise.of_run hthrown).elim
  · exact absurd (congrArg Prod.fst hrun) (Engine.run_refusing_ne_stopped _ e r)

/-- A family on an open database is there already or is refused, or it is added. -/
theorem exists_createCollection (hdb : e.db_ = .opened) (r : Option Bytes) (family : Bytes) :
    ∃ e₁ status, e.createCollection r family = (.ok status, e₁) ∧ e.Created family e₁ ∧
      ∀ n, n ∈ e₁.columnFamilies_ ↔ n ∈ e.columnFamilies_ ∨ n = family ∧ r = none := by
  rcases e.createCollection_cases r family with
    ⟨-, -, hclosed⟩ | ⟨status, hcreate, -, hwhy⟩ | ⟨hcreate, hn, -, hr⟩
  · exact absurd hdb hclosed
  · refine ⟨e, status, hcreate, Or.inl rfl, fun n => ⟨Or.inl, ?_⟩⟩
    rintro (hn | ⟨rfl, hr⟩)
    · exact hn
    · exact hwhy.resolve_right (by simp [hr])
  · refine ⟨_, _, hcreate, Or.inr ⟨hn, hdb, rfl⟩, fun n => ?_⟩
    rw [StorageEngine.mem_insert_empty hdb, or_comm, and_iff_left hr]

/-- The entries an index is built with all go to the family of the index. -/
theorem forall_family_iff {entries : List (Bytes × Bytes)} {ws : List Write}
    (hws : buildSteps codec c index entries = ws.map .ok) (e₁ : StorageEngine) :
    (∀ x ∈ ws, x.family ∈ e₁.columnFamilies_) ↔
      bearers codec index entries = [] ∨ c.getIndexCfName index ∈ e₁.columnFamilies_ := by
  have hlength := length_of_buildSteps hws
  have hof {x : Write} (hx : x ∈ ws) : x.family = c.getIndexCfName index := by
    obtain ⟨_, _, _, _, rfl⟩ := (mem_writes_iff hws).mp hx
    rfl
  rw [← List.length_eq_zero_iff, ← hlength, List.length_eq_zero_iff]
  constructor
  · intro h
    cases ws with
    | nil => exact Or.inl rfl
    | cons x ws => exact Or.inr (hof List.mem_cons_self ▸ h x List.mem_cons_self)
  · rintro (rfl | h) x hx
    · exact absurd hx List.not_mem_nil
    · rwa [hof hx]

/-- **Every document with the field has its entry** in an index. -/
def HasEntries (codec : Codec) (c : Collection) (index : Bytes) (e : StorageEngine) : Prop :=
  ∀ id doc, e.document codec c.name_ id = some doc → hasIndexField doc.data_ index = true →
    ∃ key, doc.EntryAt codec index key ∧
      e.lookup (c.getIndexCfName index) key = some doc.id_

/-- **A run of `createIndex`** on an open database: it returns, its status is OK exactly if every
document that is walked got its entry, and whatever the status the family it has added stays. Where
the status is OK, every document has its entry exactly if every document is covered. -/
theorem run_createIndex (hcodec : codec.ThrowsText) (hdb : e.db_ = .opened) : ∃ status w',
    (c.createIndex codec cut index).run (.refusing e r) = (.ret status, w') ∧
    (status.ok = true ↔ Fills codec c index e r cut ∧
      (bearers codec index (e.walk c.name_ cut) = [] ∨
        c.getIndexCfName index ∈ e.columnFamilies_ ∨ r.head = none)) ∧
    (∀ n, n ∈ w'.engine.columnFamilies_ ↔
      n ∈ e.columnFamilies_ ∨ n = c.getIndexCfName index ∧ r.head = none) ∧
    (status.ok = true → (HasEntries codec c index w'.engine ↔ Covers codec c index e cut)) := by
  obtain ⟨e₁, status₁, hcreate, hcreated, hmem⟩ :=
    exists_createCollection hdb r.head (c.getIndexCfName index)
  have hwalk : e₁.walk c.name_ cut = e.walk c.name_ cut := by
    have hcursor : e₁.cursor c.name_ = e.cursor c.name_ :=
      StorageEngine.cursor_congr fun key => hcreated.lookup_eq
    cases cut with
    | none => exact hcursor
    | some n => exact congrArg (List.take n) hcursor
  obtain ⟨status, w', ws, hrun, hok, hengine, hfamilies, hall⟩ :=
    run_fill (c := c) hcodec cut index e₁ r.tail
  rw [hwalk] at hok hall
  refine ⟨status, w', ?_, ?_, fun n => by rw [hengine, StorageEngine.mem_applyAll, hmem], fun h => ?_⟩
  · rw [createIndex, Engine.createCollection, bind_assoc, Engine.run_call_bind_refusing]
    simp only [StorageEngine.exec, hcreate]
    exact hrun
  · have hthere : c.getIndexCfName index ∈ e₁.columnFamilies_ ↔
        c.getIndexCfName index ∈ e.columnFamilies_ ∨ r.head = none := by
      rw [hmem, and_iff_right rfl]
    rw [hok, fills_iff]
    constructor
    · rintro ⟨ws, hws, hfamilies, haccepted⟩
      rw [forall_family_iff hws, hthere] at hfamilies
      exact ⟨⟨ws, hws, haccepted⟩, hfamilies⟩
    · rintro ⟨⟨ws, hws, haccepted⟩, hfamilies⟩
      refine ⟨ws, hws, ?_, haccepted⟩
      rw [forall_family_iff hws, hthere]
      exact hfamilies
  · rw [hengine]
    exact entries_iff_covers (hall h) hfamilies fun n key => hcreated.lookup_eq

/-! ### When it is all or nothing -/

/-- **Creating an index succeeds completely or leaves no index**: where the status is OK the index
is there and has an entry of every document with the field, and where it is not the indexes are
those there were. The iterator of the cursor may meet an error. -/
def AllOrNothing (codec : Codec) (c : Collection) (index : Bytes) (e : StorageEngine)
    (refusals : Stream' (Option Bytes)) (cut : Option ℕ) : Prop :=
  ∀ status w', (c.createIndex codec cut index).run (.refusing e refusals) = (.ret status, w') →
    (status.ok = true → c.getIndexCfName index ∈ w'.engine.columnFamilies_ ∧
      HasEntries codec c index w'.engine) ∧
    (status.ok = false → ∀ f, c.getIndexCfName f ∈ w'.engine.columnFamilies_ ↔
      c.getIndexCfName f ∈ e.columnFamilies_)

/-- **Where an index is created completely or not at all.** -/
structure BuildsSafely (codec : Codec) (c : Collection) (index : Bytes) (e : StorageEngine)
    (refusals : Stream' (Option Bytes)) (cut : Option ℕ) : Prop where
  /-- An index that is there, and is filled, has an entry of every document. -/
  there : c.getIndexCfName index ∈ e.columnFamilies_ → Fills codec c index e refusals cut →
    Covers codec c index e cut
  /-- An index that is added is filled, and has an entry of every document. -/
  added : c.getIndexCfName index ∉ e.columnFamilies_ → refusals.head = none →
    Fills codec c index e refusals cut ∧ Covers codec c index e cut
  /-- Where the family is refused, there is a document to fail at. -/
  refused : c.getIndexCfName index ∉ e.columnFamilies_ → refusals.head ≠ none →
    ∃ entry ∈ e.walk c.name_ cut, ∀ doc, Document.from_msgpack codec entry.2 = .ok doc →
      hasIndexField doc.data_ index = true

/-- On a database that is not open `createIndex` uses a handle that is not there. -/
theorem run_createIndex_of_not_opened (hdb : e.db_ ≠ .opened) :
    (c.createIndex codec cut index).run (.refusing e r) =
      (.raise (.undefined .engineHandle), .refusing e r.tail) := by
  have hn : c.getIndexCfName index ∉ e.columnFamilies_ := fun hn =>
    hdb (StorageEngine.opened_of_mem hn)
  have hcreate : e.createCollection r.head (c.getIndexCfName index) =
      (.error (.undefined .engineHandle), e) := by
    simp only [StorageEngine.createCollection, if_neg hn, if_pos hdb]
  rw [createIndex, Engine.createCollection, bind_assoc, Engine.run_call_bind_refusing]
  simp only [StorageEngine.exec, hcreate]
  rfl

/-- What a run comes to is all or nothing exactly if its status says what there is. -/
theorem allOrNothing_of_run {status : Status} {w' : World}
    (hrun : (c.createIndex codec cut index).run (.refusing e r) = (.ret status, w')) :
    AllOrNothing codec c index e r cut ↔
      (status.ok = true → c.getIndexCfName index ∈ w'.engine.columnFamilies_ ∧
        HasEntries codec c index w'.engine) ∧
      (status.ok = false → ∀ f, c.getIndexCfName f ∈ w'.engine.columnFamilies_ ↔
        c.getIndexCfName f ∈ e.columnFamilies_) := by
  refine ⟨fun h => h status w' hrun, fun h status' w'' hrun' => ?_⟩
  obtain ⟨hstatus, rfl⟩ := Prod.mk.inj (hrun.symm.trans hrun')
  obtain rfl := Outcome.ret.inj hstatus
  exact h

/-- An index that is created completely or not at all meets the condition. -/
theorem AllOrNothing.buildsSafely (h : AllOrNothing codec c index e r cut)
    (hcodec : codec.ThrowsText) (hdb : e.db_ = .opened) : BuildsSafely codec c index e r cut := by
  obtain ⟨status, w', hrun, hok, hmem, hentries⟩ := run_createIndex (c := c) (r := r) hcodec hdb
  obtain ⟨hsucceeds, hfails⟩ := h status w' hrun
  have hcovers (hstatus : status.ok = true) : Covers codec c index e cut :=
    (hentries hstatus).mp (hsucceeds hstatus).2
  refine ⟨fun hin hfills => ?_, fun hout hhead => ?_, fun hout hhead => ?_⟩
  · exact hcovers (hok.mpr ⟨hfills, Or.inr (Or.inl hin)⟩)
  · have hstatus : status.ok = true := by
      by_contra hbad
      have hcame := (hfails (Bool.eq_false_iff.mpr hbad) index).mp
      exact hout (hcame ((hmem _).mpr (Or.inr ⟨rfl, hhead⟩)))
    exact ⟨(hok.mp hstatus).1, hcovers hstatus⟩
  · -- without a document to fail at the status is OK, and there is no index
    rw [← not_fills_nil_iff]
    rintro ⟨hfills, hbearers⟩
    have hin := (hsucceeds (hok.mpr ⟨hfills, Or.inl hbearers⟩)).1
    exact ((hmem _).mp hin).elim hout fun hadded => hhead hadded.2

/-- An index that meets the condition is created completely or not at all. -/
theorem BuildsSafely.allOrNothing (h : BuildsSafely codec c index e r cut)
    (hcodec : codec.ThrowsText) (hdb : e.db_ = .opened) : AllOrNothing codec c index e r cut := by
  obtain ⟨status, w', hrun, hok, hmem, hentries⟩ := run_createIndex (c := c) (r := r) hcodec hdb
  rw [allOrNothing_of_run hrun]
  refine ⟨fun hstatus => ?_, fun hstatus f => ?_⟩
  · obtain ⟨hfills, hfamilies⟩ := hok.mp hstatus
    rw [hentries hstatus]
    by_cases hin : c.getIndexCfName index ∈ e.columnFamilies_
    · exact ⟨(hmem _).mpr (Or.inl hin), h.there hin hfills⟩
    by_cases hhead : r.head = none
    · exact ⟨(hmem _).mpr (Or.inr ⟨rfl, hhead⟩), (h.added hin hhead).2⟩
    · -- there is a document to fail at, so the status is not OK
      have hbearers := hfamilies.resolve_right fun hthere => hthere.elim hin hhead
      exact absurd ⟨hfills, hbearers⟩ (not_fills_nil_iff.mpr (h.refused hin hhead))
  · rw [hmem, or_iff_left_iff_imp]
    rintro ⟨heq, hhead⟩
    rw [heq]
    -- an index that is added is filled, and then the status is OK
    by_contra hout
    have hfills := (h.added hout hhead).1
    exact Bool.eq_false_iff.mp hstatus (hok.mpr ⟨hfills, Or.inr (Or.inr hhead)⟩)

/-- **When creating an index succeeds completely or leaves no index.** -/
theorem allOrNothing_iff (c : Collection) (index : Bytes) (e : StorageEngine)
    (refusals : Stream' (Option Bytes)) (cut : Option ℕ) (hcodec : codec.ThrowsText) :
    AllOrNothing codec c index e refusals cut ↔
      (e.db_ = .opened → BuildsSafely codec c index e refusals cut) := by
  by_cases hdb : e.db_ = .opened
  · rw [forall_prop_of_true hdb]
    exact ⟨fun h => h.buildsSafely hcodec hdb, fun h => h.allOrNothing hcodec hdb⟩
  · refine iff_of_true (fun status w' hrun => ?_) fun h => absurd h hdb
    rw [run_createIndex_of_not_opened hdb] at hrun
    cases hrun

/-- **Where the iterator meets no error** an index that is filled has an entry of every document
exactly if no two documents share a key. -/
theorem covers_none_iff (h : Fills codec c index e r none) :
    Covers codec c index e none ↔ KeysApart codec c index e := by
  constructor
  · intro hcovers id doc id' doc' key hdoc hdoc' hat hat'
    obtain ⟨key', hat'', hsame, -⟩ := hcovers id' doc' hdoc' hat'.hasField
    rw [hat''.unique hat'] at hsame
    exact hsame doc (mem_bearers.mpr ⟨id, hdoc, hat.hasField⟩) hat
  · intro hapart id doc hdoc hfield
    have hwalked : doc ∈ bearers codec index (e.walk c.name_ none) :=
      mem_bearers.mpr ⟨id, hdoc, hfield⟩
    obtain ⟨key, hat⟩ := h.keyed doc hwalked
    refine ⟨key, hat, fun doc' hdoc' hat' => ?_, Or.inl ⟨doc, hwalked, hat⟩⟩
    obtain ⟨id', hdoc', -⟩ := mem_bearers.mp hdoc'
    exact hapart id' doc' id doc key hdoc' hdoc hat' hat

/-! ### An index that is created completely, and one that is not -/

/-- A document with a value in the field `f`. -/
def marked (value : Json) : Document :=
  ⟨Bytes.ofText "a", .object [(idField, .string (Bytes.ofText "a")), (Bytes.ofText "f", value)]⟩

/-- A collection with one document. -/
def holding (doc : Document) : StorageEngine :=
  Operation.afterAll .standard .fresh
    [.createCollection letterC.name_, .document letterC (.create ⟨0, fun _ => 0⟩ doc)]

/-- Of a document with a number in the field an index is created completely. -/
theorem allOrNothing_marked_number :
    AllOrNothing .standard letterC (Bytes.ofText "f") (holding (marked (.integer 1)))
      (Stream'.const none) none := by
  refine (allOrNothing_iff _ _ _ _ none Codec.throwsText_standard).mpr fun _ => ?_
  set doc := marked (.integer 1) with hdoc
  have hdecode := Document.from_msgpack_to_msgpack .standard doc
  have hcursor : (holding doc).cursor letterC.name_ = [(doc.id_, doc.to_msgpack .standard)] := by
    decide +kernel
  have hfield : hasIndexField doc.data_ (Bytes.ofText "f") = true := by decide
  have hbearers : bearers .standard (Bytes.ofText "f") ((holding doc).cursor letterC.name_) =
      [doc] := by
    rw [hcursor, bearers, List.filterMap_cons, hdecode]
    simp only [Except.toOption, Option.filter, hfield, if_true, List.filterMap_nil]
  have hfills : Fills .standard letterC (Bytes.ofText "f") (holding doc) (Stream'.const none)
      none := by
    refine ⟨fun entry hentry => ⟨doc, ?_⟩, fun doc' hdoc' => ?_, fun i _ => rfl⟩
    · replace hentry := hcursor ▸ StorageEngine.mem_cursor_of_mem_walk hentry
      rw [List.mem_singleton.mp hentry, hdecode]
    · replace hdoc' := hbearers ▸ (hdoc' : doc' ∈ bearers .standard (Bytes.ofText "f")
        ((holding doc).cursor letterC.name_))
      rw [List.mem_singleton] at hdoc'
      rw [hdoc']
      exact ⟨_, .integer 1, _, rfl, rfl, rfl⟩
  have hapart : KeysApart .standard letterC (Bytes.ofText "f") (holding doc) := by
    have hone {id : Bytes} {doc' : Document} {key : Bytes}
        (hdoc' : (holding doc).document .standard letterC.name_ id = some doc')
        (hat : doc'.EntryAt .standard (Bytes.ofText "f") key) : doc' = doc := by
      have hmem := mem_bearers.mpr ⟨id, hdoc', hat.hasField⟩
      rwa [hbearers, List.mem_singleton] at hmem
    intro id doc₁ id' doc₂ key hdoc₁ hdoc₂ hat₁ hat₂
    rw [hone hdoc₁ hat₁, hone hdoc₂ hat₂]
  have hcovers := (covers_none_iff hfills).mpr hapart
  exact ⟨fun _ _ => hcovers, fun _ _ => ⟨hfills, hcovers⟩, fun _ h => absurd rfl h⟩

/-- **With an object in the field the index is left, and the status is not OK.** With a number in
the field and an iterator that meets an error before the document, the status is OK, and the index
is empty. -/
theorem not_allOrNothing_marked :
    ¬AllOrNothing .standard letterC (Bytes.ofText "f") (holding (marked (.object [])))
      (Stream'.const none) none ∧
    ¬AllOrNothing .standard letterC (Bytes.ofText "f") (holding (marked (.integer 1)))
      (Stream'.const none) (some 0) := by
  constructor
  · intro h
    have hout : letterC.getIndexCfName (Bytes.ofText "f") ∉
        (holding (marked (.object []))).columnFamilies_ := by decide +kernel
    have hin : letterC.getIndexCfName (Bytes.ofText "f") ∈
        ((letterC.createIndex .standard none (Bytes.ofText "f")).run (.refusing
          (holding (marked (.object []))) (Stream'.const none))).2.engine.columnFamilies_ := by
      decide +kernel
    have hfailed : ((letterC.createIndex .standard none (Bytes.ofText "f")).run
        (.refusing (holding (marked (.object []))) (Stream'.const none))).1.map Status.ok =
          .ret false := by decide +kernel
    rcases hrun : (letterC.createIndex .standard none (Bytes.ofText "f")).run
      (.refusing (holding (marked (.object []))) (Stream'.const none)) with
        ⟨status | exn | _, w'⟩ <;> rw [hrun] at hin hfailed
    · exact hout (((h status w' hrun).2 (Outcome.ret.inj hfailed) _).mp hin)
    · cases hfailed
    · cases hfailed
  · intro h
    have hstatus : ((letterC.createIndex .standard (some 0) (Bytes.ofText "f")).run
        (.refusing (holding (marked (.integer 1))) (Stream'.const none))).1.map Status.ok =
          .ret true := by decide +kernel
    have hstored : ((letterC.createIndex .standard (some 0) (Bytes.ofText "f")).run
        (.refusing (holding (marked (.integer 1))) (Stream'.const none))).2.engine.lookup
          letterC.name_ (Bytes.ofText "a") = some ((marked (.integer 1)).to_msgpack .standard) := by
      decide +kernel
    have hempty : ((letterC.createIndex .standard (some 0) (Bytes.ofText "f")).run
        (.refusing (holding (marked (.integer 1))) (Stream'.const none))).2.engine.cursor
          (letterC.getIndexCfName (Bytes.ofText "f")) = [] := by decide +kernel
    rcases hrun : (letterC.createIndex .standard (some 0) (Bytes.ofText "f")).run
      (.refusing (holding (marked (.integer 1))) (Stream'.const none)) with
        ⟨status | exn | _, w'⟩ <;> rw [hrun] at hstatus hstored hempty
    · have hdoc : w'.engine.document .standard letterC.name_ (Bytes.ofText "a") =
          some (marked (.integer 1)) := by
        rw [StorageEngine.document, hstored, Option.bind_some, Document.from_msgpack_to_msgpack]
        rfl
      obtain ⟨key, -, hentry⟩ :=
        ((h status w' hrun).1 (Outcome.ret.inj hstatus)).2 _ _ hdoc (by decide)
      have hmem := StorageEngine.mem_cursor.mpr hentry
      rw [hempty] at hmem
      exact List.not_mem_nil hmem
    · cases hstatus
    · cases hstatus

end Collection

end AnuDB
