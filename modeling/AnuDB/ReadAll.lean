import AnuDB.Cache

/-!
# Reading all documents

A `Cursor` walks the entries a family had when it was created, in the order of their keys
(`AnuDB.Cursor`). `readAllDocuments` of a collection reads what its cursor walks up to a limit,
and up to the first value that does not decode
(`AnuDB.Collection.run_readAllDocuments`). `readAllDocuments` of a database passes no limit on,
and the one it gets by default is 10: it reads all documents exactly if there are no more than
that (`AnuDB.Collection.readsAll_iff`).
-/

namespace AnuDB

open Effect

/-! ### Cursors -/

/-- `Cursor`. -/
structure Cursor where
  /-- The entries from the position of the iterator on. -/
  iterator_ : List (Bytes × Bytes)
  /-- Whether the cursor is at an entry. -/
  valid_ : Bool
  /-- It is while there is one. -/
  valid_eq : valid_ = !iterator_.isEmpty

namespace Cursor

/-- The cursor whose iterator has been moved. -/
def moved (iterator : List (Bytes × Bytes)) : Cursor := ⟨iterator, !iterator.isEmpty, rfl⟩

/-- `Cursor::isValid`. -/
def isValid (cursor : Cursor) : Bool := cursor.valid_

/-- `Cursor::next`. -/
def next (cursor : Cursor) : Cursor :=
  if cursor.valid_ then moved cursor.iterator_.tail else cursor

theorem ne_nil_of_valid {cursor : Cursor} (h : cursor.valid_ = true) : cursor.iterator_ ≠ [] := by
  rintro hnil
  rw [cursor.valid_eq, hnil] at h
  cases h

/-- `iterator_->value()`, where the cursor is at an entry. -/
def value (cursor : Cursor) (h : cursor.valid_ = true) : Bytes :=
  (cursor.iterator_.head (ne_nil_of_valid h)).2

/-- `Cursor::current`. -/
def current (codec : Codec) (cursor : Cursor) : Except Exn (Except Status Document) :=
  if h : cursor.valid_ = true then do
    let doc ← Document.from_msgpack codec (cursor.value h)
    return .ok doc
  else .ok (.error (.invalidArgument (Bytes.ofText "Invalid cursor position")))

variable {entries : List (Bytes × Bytes)} {x : Bytes × Bytes}

@[simp] theorem isValid_moved_nil : (moved []).isValid = false := rfl

@[simp] theorem isValid_moved_cons : (moved (x :: entries)).isValid = true := rfl

@[simp] theorem next_moved_cons : (moved (x :: entries)).next = moved entries := rfl

@[simp] theorem current_moved_cons (codec : Codec) : (moved (x :: entries)).current codec =
    Except.ok <$> Document.from_msgpack codec x.2 := rfl

/-- Every move takes the cursor past an entry. -/
theorem length_next_lt {cursor : Cursor} (h : cursor.isValid = true) :
    cursor.next.iterator_.length < cursor.iterator_.length := by
  have hvalid : cursor.valid_ = true := h
  rw [next, if_pos hvalid]
  have hpos : 0 < cursor.iterator_.length := List.length_pos_iff.mpr (ne_nil_of_valid hvalid)
  change cursor.iterator_.tail.length < _
  rw [List.length_tail]
  omega

end Cursor

/-! ### The loop -/

namespace Collection

variable (codec : Codec) (c : Collection)

/-- `Collection::createCursor`. -/
def createCursor : Engine Cursor := do
  let entries ← Engine.cursor c.name_ none
  return .moved entries

/-- The loop of `readAllDocuments`: the documents it appends to, and what is thrown, if anything
is. -/
def readEntries (limit : UInt64) (cursor : Cursor) (docIds : List Document) (cnt : UInt64) :
    List Document × Option Exn :=
  if _h : cursor.isValid = true ∧ cnt < limit then
    match cursor.current codec with
    | .error exn => (docIds, some exn)
    | .ok (.error _) => readEntries limit cursor.next docIds (cnt + 1)
    | .ok (.ok doc) => readEntries limit cursor.next (docIds ++ [doc]) (cnt + 1)
  else (docIds, none)
termination_by cursor.iterator_.length
decreasing_by all_goals exact Cursor.length_next_lt _h.1

/-- `Collection::readAllDocuments`: the status, and the documents as the caller finds them. -/
def readAllDocuments (docIds : List Document) (limit : UInt64) :
    Engine (Status × List Document) := do
  let cursor ← c.createCursor
  match readEntries codec limit cursor docIds 0 with
  | (docIds, none) => return (.OK, docIds)
  | (docIds, some exn) => do
    let status ← Prog.ofExcept (corruptionOf exn)
    return (status, docIds)

/-- The limit where none is passed. -/
def defaultLimit : UInt64 := 10

end Collection

/-- `Database::readAllDocuments`. -/
def Database.readAllDocuments (codec : Codec) (db : Database) (collectionName : Bytes)
    (docIds : List Document) : Engine ((Status × List Document) × Database) := do
  let (collection, db) ← db.getCollection collectionName
  match collection with
  | none =>
    return ((.notFound (Bytes.ofText "Collection not found: " ++ collectionName), docIds), db)
  | some c =>
    let result ← c.readAllDocuments codec docIds Collection.defaultLimit
    return (result, db)

/-! ### What is read -/

/-- The documents of entries up to the first that does not decode, and what that throws. -/
def decoded (codec : Codec) : List (Bytes × Bytes) → List Document × Option Exn
  | [] => ([], none)
  | (_, value) :: entries =>
    match Document.from_msgpack codec value with
    | .error exn => ([], some exn)
    | .ok doc => (doc :: (decoded codec entries).1, (decoded codec entries).2)

namespace Collection

variable {codec : Codec} {c : Collection} {e : StorageEngine} {r : Stream' (Option Bytes)}
  {docs : List Document}

/-- **The loop reads as many entries as there are left to its limit.** The counter does not come
round, since it stays under the limit. -/
theorem readEntries_moved (codec : Codec) (limit : UInt64) (entries : List (Bytes × Bytes))
    (docIds : List Document) (cnt : UInt64) :
    readEntries codec limit (.moved entries) docIds cnt =
      (docIds ++ (decoded codec (entries.take (limit.toNat - cnt.toNat))).1,
        (decoded codec (entries.take (limit.toNat - cnt.toNat))).2) := by
  induction entries generalizing docIds cnt with
  | nil =>
    rw [readEntries, dif_neg (by simp), List.take_nil, decoded, List.append_nil]
  | cons x entries ih =>
    rw [readEntries]
    by_cases hlt : cnt < limit
    · have hnat : cnt.toNat < limit.toNat := UInt64.lt_iff_toNat_lt.mp hlt
      have hsucc : (cnt + 1).toNat = cnt.toNat + 1 := by
        have hlimit := limit.toNat_lt
        rw [UInt64.toNat_add, UInt64.toNat_one, Nat.mod_eq_of_lt (by omega)]
      have hleft : limit.toNat - cnt.toNat = (limit.toNat - (cnt + 1).toNat) + 1 := by omega
      rw [dif_pos ⟨Cursor.isValid_moved_cons, hlt⟩, Cursor.current_moved_cons,
        Cursor.next_moved_cons, hleft, List.take_succ_cons, decoded]
      rcases Document.from_msgpack codec x.2 with exn | doc
      · -- the loop is left with what was read before
        show (docIds, some exn) = _
        rw [List.append_nil]
      · show readEntries codec limit (.moved entries) (docIds ++ [doc]) (cnt + 1) = _
        rw [ih, List.append_assoc, List.singleton_append]
    · -- the limit is reached
      have hleft : limit.toNat - cnt.toNat = 0 :=
        Nat.sub_eq_zero_of_le (not_lt.mp fun h => hlt (UInt64.lt_iff_toNat_lt.mpr h))
      rw [dif_neg fun h => hlt h.2, hleft, List.take_zero, decoded, List.append_nil]

/-- What is reported after the loop. -/
def readStatus : Option Exn → Except Exn Status
  | none => .ok .OK
  | some exn => corruptionOf exn

/-- **What reading all documents comes to**: the documents up to the limit are appended, or those
before one that does not decode. -/
theorem run_readAllDocuments (docIds : List Document) (limit : UInt64) :
    (c.readAllDocuments codec docIds limit).run (.refusing e r) =
      (.ofExcept ((fun status => (status,
        docIds ++ (decoded codec ((e.cursor c.name_).take limit.toNat)).1)) <$>
          readStatus (decoded codec ((e.cursor c.name_).take limit.toNat)).2),
        .refusing e r.tail) := by
  have hcursor : c.createCursor.run (.refusing e r) =
      (.ret (.moved (e.cursor c.name_)), .refusing e r.tail) := by
    rw [createCursor, Engine.cursor, Engine.run_call_bind_refusing]
    rfl
  rw [readAllDocuments, Engine.run_bind_of_ret hcursor, readEntries_moved, UInt64.toNat_zero,
    Nat.sub_zero]
  rcases decoded codec ((e.cursor c.name_).take limit.toNat) with ⟨docs, _ | exn⟩
  · rfl
  · show (Prog.ofExcept (corruptionOf exn) >>= _ : Engine _).run _ = _
    rw [Engine.run, Prog.run_ofExcept_bind]
    change _ = (Outcome.ofExcept (_ <$> corruptionOf exn), _)
    rcases corruptionOf exn with exn' | status <;> rfl

/-! ### The documents of a collection -/

/-- **The documents of a collection**, each of them once, in the order of their keys. -/
def Lists (codec : Codec) (c : Collection) (e : StorageEngine) (docs : List Document) : Prop :=
  ∃ ids : List Bytes, ids.Pairwise (· < ·) ∧
    (∀ id, id ∈ ids ↔ (e.lookup c.name_ id).isSome = true) ∧
    ids.map (e.document codec c.name_) = docs.map some

/-- The documents are what a cursor walks, decoded. -/
theorem Lists.map_cursor (h : Lists codec c e docs) :
    ((e.cursor c.name_).map fun x => (Document.from_msgpack codec x.2).toOption) =
      docs.map some := by
  obtain ⟨ids, hordered, hids, hdocs⟩ := h
  have hkeys : (e.cursor c.name_).map Prod.fst = ids := by
    refine (e.pairwise_cursor c.name_).eq_of_mem_iff hordered fun id => ?_
    rw [hids, StorageEngine.mem_keys_cursor]
  rw [← hdocs, ← hkeys, List.map_map]
  refine List.map_congr_left fun x hx => ?_
  rw [Function.comp_apply, StorageEngine.document, StorageEngine.mem_cursor.mp hx,
    Option.bind_some]

/-- Entries that decode are read. -/
theorem decoded_of_map {entries : List (Bytes × Bytes)}
    (h : (entries.map fun x => (Document.from_msgpack codec x.2).toOption) = docs.map some) :
    decoded codec entries = (docs, none) := by
  induction entries generalizing docs with
  | nil =>
    obtain rfl := List.map_eq_nil_iff.mp h.symm
    rfl
  | cons x entries ih =>
    obtain ⟨doc, docs, rfl, hdoc, hdocs⟩ := List.map_eq_cons_iff.mp h.symm
    rw [decoded, eq_ok_of_toOption hdoc.symm]
    simp only
    rw [ih hdocs.symm]

/-- **A collection whose documents decode is read up to the limit.** -/
theorem Lists.run_readAllDocuments (h : Lists codec c e docs) (docIds : List Document)
    (limit : UInt64) : (c.readAllDocuments codec docIds limit).run (.refusing e r) =
      (.ret (.OK, docIds ++ docs.take limit.toNat), .refusing e r.tail) := by
  have hread : decoded codec ((e.cursor c.name_).take limit.toNat) =
      (docs.take limit.toNat, none) := by
    refine decoded_of_map ?_
    rw [List.map_take, List.map_take, h.map_cursor]
  rw [Collection.run_readAllDocuments, hread]
  rfl

/-! ### What a database reads -/

/-- A database reads up to the limit where none is passed. -/
theorem Lists.run_readAllDocuments_database (h : Lists codec c e docs)
    (hexists : c.name_ ∈ e.columnFamilies_) (db : Database) (docIds : List Document)
    (r : Stream' (Option Bytes)) : ∃ db' r',
    (db.readAllDocuments codec c.name_ docIds).run (.refusing e r) =
      (.ret ((.OK, docIds ++ docs.take 10), db'), .refusing e r') := by
  have hobtained : ∃ db' r', (db.getCollection c.name_).run (.refusing e r) =
      (.ret (some c, db'), .refusing e r') := by
    rcases hfind : db.find c.name_ with _ | c'
    · -- it is not in the cache, and the engine has it
      rw [Database.getCollection, hfind]
      simp only
      rw [Engine.collectionExists, Engine.run_call_bind_refusing]
      simp only [StorageEngine.exec, StorageEngine.collectionExists,
        Std.ExtTreeMap.contains_iff_mem.mpr hexists, if_true]
      exact ⟨_, _, rfl⟩
    · obtain ⟨-, hname⟩ := Database.exists_of_find hfind
      obtain rfl : c' = c := congrArg Collection.mk hname
      exact ⟨db, r, Database.run_getCollection_of_cached hfind⟩
  obtain ⟨db', r', hobtained⟩ := hobtained
  refine ⟨db', r'.tail, ?_⟩
  rw [Database.readAllDocuments, Engine.run_bind_of_ret hobtained]
  exact Engine.run_bind_of_ret (h.run_readAllDocuments docIds defaultLimit)

/-- **All documents are read**: those of a database are all of the collection, and those of the
collection the first ones, up to the limit. -/
def ReadsAll (codec : Codec) (c : Collection) (e : StorageEngine) (docs : List Document) :
    Prop :=
  ∀ (docIds : List Document) (refusals : Stream' (Option Bytes)),
    (∀ db : Database, ∃ db' refusals',
      (db.readAllDocuments codec c.name_ docIds).run (.refusing e refusals) =
        (.ret ((.OK, docIds ++ docs), db'), .refusing e refusals')) ∧
    ∀ limit : UInt64, ∃ refusals',
      (c.readAllDocuments codec docIds limit).run (.refusing e refusals) =
        (.ret (.OK, docIds ++ docs.take (min limit.toNat docs.length)), .refusing e refusals')

/-- What a database reads is all there is, where all documents are read. -/
theorem ReadsAll.take_ten (h : ReadsAll codec c e docs) (hdocs : Lists codec c e docs)
    (hexists : c.name_ ∈ e.columnFamilies_) : docs.take 10 = docs := by
  obtain ⟨db, r, hrun⟩ := (h [] (Stream'.const none)).1 ⟨true, []⟩
  obtain ⟨db', r', hrun'⟩ := hdocs.run_readAllDocuments_database hexists ⟨true, []⟩ []
    (Stream'.const none)
  have hresult := Outcome.ret.inj (Prod.mk.inj (hrun'.symm.trans hrun)).1
  exact (Prod.mk.inj (Prod.mk.inj hresult).1).2

/-- **When all documents are read**: where there are no more than the limit a database has. -/
theorem readsAll_iff (hexists : c.name_ ∈ e.columnFamilies_) (hdocs : Lists codec c e docs) :
    ReadsAll codec c e docs ↔ docs.length ≤ 10 := by
  constructor
  · intro h
    exact (List.take_eq_self_iff docs).mp (h.take_ten hdocs hexists)
  · intro hten docIds refusals
    refine ⟨fun db => ?_, fun limit => ⟨refusals.tail, ?_⟩⟩
    · obtain ⟨db', r', hrun⟩ := hdocs.run_readAllDocuments_database hexists db docIds refusals
      rw [List.take_of_length_le hten] at hrun
      exact ⟨db', r', hrun⟩
    · rw [hdocs.run_readAllDocuments, ← List.take_eq_take_min]

/-! ### One document, and eleven -/

/-- The id of one of so many documents. -/
def letterId (i : ℕ) : Bytes := [UInt8.ofNat (97 + i)]

/-- A collection of so many documents. -/
def stocked (n : ℕ) : StorageEngine :=
  plainAfter ((List.range n).map fun i => .create ⟨0, fun _ => 0⟩ ⟨letterId i, .object []⟩)

/-- The documents in it. -/
def stock (n : ℕ) : List Document :=
  (List.range n).map fun i => ⟨letterId i, .object [(idField, .string (letterId i))]⟩

/-- What is stored is what the documents are written as. -/
theorem lists_of_lookup {ids : List Bytes}
    (hkeys : (e.cursor c.name_).map Prod.fst = ids)
    (hstored : ids.map (e.lookup c.name_) = docs.map fun doc => some (doc.to_msgpack codec)) :
    Lists codec c e docs := by
  refine ⟨ids, hkeys ▸ e.pairwise_cursor c.name_, fun id => ?_, ?_⟩
  · rw [← hkeys, StorageEngine.mem_keys_cursor]
  · have hread := congrArg (List.map fun stored : Option Bytes => stored.bind fun serialized =>
      (Document.from_msgpack codec serialized).toOption) hstored
    rw [List.map_map, List.map_map] at hread
    refine hread.trans (List.map_congr_left fun doc _ => ?_)
    rw [Function.comp_apply, Option.bind_some, Document.from_msgpack_to_msgpack]
    rfl

/-- **A collection of one document is read.** -/
theorem readsAll_one : ReadsAll .standard letterC (stocked 1) (stock 1) := by
  refine (readsAll_iff (by decide +kernel) ?_).mpr (by decide)
  exact @lists_of_lookup .standard letterC (stocked 1) (stock 1) ((List.range 1).map letterId)
    (by decide +kernel) (by decide +kernel)

theorem lists_stocked_eleven : Lists .standard letterC (stocked 11) (stock 11) :=
  @lists_of_lookup .standard letterC (stocked 11) (stock 11) ((List.range 11).map letterId)
    (by decide +kernel) (by decide +kernel)

/-- **One of eleven documents is not read.** -/
theorem not_readsAll_eleven :
    Lists .standard letterC (stocked 11) (stock 11) ∧
      ¬ReadsAll .standard letterC (stocked 11) (stock 11) := by
  refine ⟨lists_stocked_eleven, fun h => ?_⟩
  have hlength := congrArg List.length (h.take_ten lists_stocked_eleven (by decide +kernel))
  exact absurd hlength (by decide)

end Collection

end AnuDB
