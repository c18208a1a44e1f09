import AnuDB.Keys
import AnuDB.Update
import AnuDB.Writes

/-!
# Collections

The methods of `Collection`, as programs of engine calls. There is no transaction in any
of them: `createDocument` writes one entry in each index of the collection the document
has a field for, and then the document; `deleteDocument` removes the entries of the
document it has read, and then the document; `updateDocument` reads, applies the update
to what it has read, and is `createDocument` from there on. What a document was before
is not looked at by `createDocument`, and so not by `updateDocument` either.

The destructor drops the indexes of the collection.

What the calls take from outside is an argument: the build (`AnuDB.Codec`), for an id that has to be
generated the time and four random numbers (`AnuDB.Entropy`), and for an index that is built where
the iterator of its cursor meets an error, if it does.
-/

namespace AnuDB

open Effect

/-- What an id is generated from: the time in seconds, and four results of `rand`. -/
structure Entropy where
  /-- `time(nullptr)`, cut down to thirty-two bits. -/
  timestamp : UInt32
  /-- The results of `rand`, in order. -/
  draws : Fin 4 → ℕ

/-- The characters of `generateId`; `sizeof` counts the NUL at the end too. -/
def alphanum : Bytes :=
  Bytes.ofText "0123456789ABCDEFGHIJKLMNOPQRSTUVWXYZabcdefghijklmnopqrstuvwxyz" ++ [0]

/-- The time characters: the time to base `sizeof(alphanum)`, the least digit first. -/
def timeCharacters : ℕ → ℕ → Bytes
  | 0, _ => []
  | n + 1, timestamp =>
    alphanum.getD (timestamp % alphanum.length) 0 ::
      timeCharacters n (timestamp / alphanum.length)

/-- `Collection::generateId`. -/
def generateId (entropy : Entropy) : Bytes :=
  timeCharacters 8 entropy.timestamp.toNat ++
    List.ofFn fun i => alphanum.getD (entropy.draws i % (alphanum.length - 1)) 0

/-- A collection object. -/
structure Collection where
  /-- The name. -/
  name_ : Bytes
  deriving DecidableEq

/-- What the `catch` of the methods makes of an exception; it does not see undefined
behaviour. -/
def corruptionOf : Exn → Except Exn Status
  | .exception what =>
    .ok (.corruption (Bytes.ofText "Failed to deserialize document: " ++ what))
  | .undefined u => .error (.undefined u)

/-- `Collection::hasIndexField`. -/
def hasIndexField (data : Json) (field : Bytes) : Bool := data.contains field

namespace Collection

variable (codec : Codec) (c : Collection)

/-- `Collection::getIndexCfName`. -/
def getIndexCfName (index : Bytes) : Bytes := indexFamily c.name_ index

/-- The key the entry of a document in an index goes under. -/
def entryKey (doc : Document) (index : Bytes) : Except Exn Bytes :=
  indexKey codec ((doc.data_.find? index).getD .null) doc.id_

/-- `Collection::insertIfIndexFieldExists`. -/
def insertIfIndexFieldExists (doc : Document) (index : Bytes) : Engine Status := do
  let key ← Prog.ofExcept (entryKey codec doc index)
  Engine.putIndex (c.getIndexCfName index) key doc.id_

/-- `Collection::deleteIfIndexFieldExists`. -/
def deleteIfIndexFieldExists (doc : Document) (index : Bytes) : Engine Status := do
  let key ← Prog.ofExcept (entryKey codec doc index)
  Engine.remove (c.getIndexCfName index) key

/-- A loop over indexes: the method is called for the indexes on a field the document
has, and the loop is left with the first status that is not OK. -/
def forIndexes (method : Document → Bytes → Engine Status) (doc : Document) :
    List Bytes → Engine Status
  | [] => pure .OK
  | index :: indexes =>
    if hasIndexField doc.data_ index then do
      let status ← method doc index
      if status.ok then forIndexes method doc indexes else pure status
    else forIndexes method doc indexes

/-- The document with a generated id, if it has none. -/
def assignId (entropy : Entropy) (doc : Document) : Document :=
  if doc.id_ = [] then { doc with id_ := generateId entropy } else doc

/-- `Collection::createDocument`: the status, and the document as the caller finds it
changed. -/
def createDocument (entropy : Entropy) (doc : Document) : Engine (Status × Document) := do
  let doc ← Prog.ofExcept (assignId entropy doc).withId
  let indexes ← Engine.getIndexNames c.name_
  let status ← forIndexes (c.insertIfIndexFieldExists codec) doc indexes
  if status.ok then
    let status ← Engine.put c.name_ doc.id_ (doc.to_msgpack codec)
    return (status, doc)
  else return (status, doc)

/-- `Collection::readDocument`. -/
def readDocument (id : Bytes) : Engine (Except Status Document) := do
  match ← Engine.get c.name_ id with
  | .error status => return .error status
  | .ok serialized =>
    match Document.from_msgpack codec serialized with
    | .ok doc => return .ok doc
    | .error e =>
      let status ← Prog.ofExcept (corruptionOf e)
      return .error status

/-- `Collection::deleteDocument`. -/
def deleteDocument (id : Bytes) : Engine Status := do
  match ← c.readDocument codec id with
  | .error status => return status
  | .ok doc =>
    let indexes ← Engine.getIndexNames c.name_
    let status ← forIndexes (c.deleteIfIndexFieldExists codec) doc indexes
    if status.ok then Engine.remove c.name_ id else return status

/-- The document an upsert starts from. -/
def upserted (id : Bytes) : Document := ⟨id, .object [(idField, .string id)]⟩

/-- `Collection::updateDocument`. -/
def updateDocument (entropy : Entropy) (id : Bytes) (update : Json) (upsert : Bool) :
    Engine Status := do
  match ← c.readDocument codec id with
  | .error status =>
    if status.isNotFound && upsert then
      let doc ← Prog.ofExcept ((upserted id).applyUpdate update)
      let (status, _) ← c.createDocument codec entropy doc
      return status
    else return status
  | .ok doc =>
    let doc ← Prog.ofExcept (doc.applyUpdate update)
    let (status, _) ← c.createDocument codec entropy doc
    return status

/-- The loop of `createIndex` over the entries its cursor walks. -/
def indexEntries (index : Bytes) : List (Bytes × Bytes) → Engine Status
  | [] => pure .OK
  | (_, value) :: entries => do
    let doc ← Prog.ofExcept (Document.from_msgpack codec value)
    if hasIndexField doc.data_ index then
      let status ← c.insertIfIndexFieldExists codec doc index
      if status.ok then indexEntries index entries else return status
    else indexEntries index entries

/-- What `createIndex` does inside its `try`. -/
def buildIndex (cut : Option ℕ) (index : Bytes) : Engine Status := do
  let entries ← Engine.cursor c.name_ cut
  c.indexEntries codec index entries

/-- `Collection::createIndex`: the status of creating the family is not looked at. -/
def createIndex (cut : Option ℕ) (index : Bytes) : Engine Status := do
  let _ ← Engine.createCollection (c.getIndexCfName index)
  Prog.tryCatch (c.buildIndex codec cut index) fun e => Prog.ofExcept (corruptionOf e)

/-- `Collection::deleteIndex`. -/
def deleteIndex (index : Bytes) : Engine Status := Engine.dropCollection (c.getIndexCfName index)

/-- `Collection::getIndex`. -/
def getIndex : Engine (List Bytes) := Engine.getIndexNames c.name_

/-- The indexes deleted one after the other, whatever the statuses. -/
def deleteIndexes : List Bytes → Engine Unit
  | [] => pure ()
  | index :: indexes => do
    let _ ← c.deleteIndex index
    deleteIndexes indexes

/-- `Collection::~Collection`. -/
def destroy : Engine Unit := do
  let indexes ← Engine.getIndexNames c.name_
  c.deleteIndexes indexes

end Collection

/-! ### Generated ids -/

theorem length_timeCharacters (n timestamp : ℕ) : (timeCharacters n timestamp).length = n := by
  induction n generalizing timestamp with
  | zero => rfl
  | succ n ih => rw [timeCharacters, List.length_cons, ih]

theorem length_generateId (entropy : Entropy) : (generateId entropy).length = 12 := by
  rw [generateId, List.length_append, length_timeCharacters, List.length_ofFn]

/-- A generated id is never empty. -/
theorem generateId_ne_nil (entropy : Entropy) : generateId entropy ≠ [] := by
  rw [← List.length_pos_iff, length_generateId]
  decide

end AnuDB
