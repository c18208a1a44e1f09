import AnuDB.Json
import AnuDB.Lib.Prog

/-!
# The storage engine

`AnuDB.StorageEngine` wraps RocksDB: one column family per collection and one per index,
all in one flat namespace of names. A column family is a finite map of byte strings in
byte order, and a handle in `columnFamilies_` stands for the contents it designates, so
what is in the map is what can be read and written now. Handles are held only while
the database is open: that is a field of the structure, so no call on a family that was
found can meet a handle of RocksDB that is not open.

RocksDB may refuse any call that reports a status; the text it gives is the `fault` of
the call, an input. A refused call has no effect. `AnuDB.World` runs a program of
engine calls (`AnuDB.Call`) against an engine and a stream of fates, one per call: the
call goes through, is refused, or the process stops there.

Names are joined and split at `__index__`. An index family is `<collection>__index__<field>`,
and `AnuDB.StorageEngine.getIndexNames` takes it apart at the **first** occurrence. The
names for which that gives the collection back are the ones
`AnuDB.StorageEngine.mem_getIndexNames` calls `AnuDB.Separable`.
-/

namespace AnuDB

/-! ### Statuses -/

/-- The codes of a status. -/
inductive Code where
  | okay | notFound | corruption | notSupported | invalidArgument | ioError | internalError
  deriving DecidableEq, Repr

/-- What a call reports: a code and a message. -/
structure Status where
  /-- The code. -/
  code : Code
  /-- The message. -/
  msg : Bytes
  deriving DecidableEq, Repr

namespace Status

/-- The call succeeded. -/
def OK : Status := ⟨.okay, []⟩

/-- A name or a key that is not there. -/
def notFound (msg : Bytes) : Status := ⟨.notFound, msg⟩

/-- Stored bytes that do not decode. -/
def corruption (msg : Bytes) : Status := ⟨.corruption, msg⟩

/-- Something the code does not do. -/
def notSupported (msg : Bytes) : Status := ⟨.notSupported, msg⟩

/-- An argument the code rejects itself. -/
def invalidArgument (msg : Bytes) : Status := ⟨.invalidArgument, msg⟩

/-- RocksDB refused the call. -/
def ioError (msg : Bytes) : Status := ⟨.ioError, msg⟩

/-- Anything else that went wrong. -/
def internalError (msg : Bytes) : Status := ⟨.internalError, msg⟩

/-- Whether the call succeeded. -/
def ok (s : Status) : Bool := s.code == .okay

/-- Whether the call failed to find something. -/
def isNotFound (s : Status) : Bool := s.code == .notFound

@[simp] theorem ok_OK : OK.ok = true := rfl

@[simp] theorem ok_notFound (msg : Bytes) : (notFound msg).ok = false := rfl

@[simp] theorem ok_corruption (msg : Bytes) : (corruption msg).ok = false := rfl

@[simp] theorem ok_invalidArgument (msg : Bytes) : (invalidArgument msg).ok = false := rfl

@[simp] theorem ok_ioError (msg : Bytes) : (ioError msg).ok = false := rfl

@[simp] theorem ok_notSupported (msg : Bytes) : (notSupported msg).ok = false := rfl

@[simp] theorem ok_internalError (msg : Bytes) : (internalError msg).ok = false := rfl

@[simp] theorem isNotFound_OK : OK.isNotFound = false := rfl

@[simp] theorem isNotFound_notFound (msg : Bytes) : (notFound msg).isNotFound = true := rfl

@[simp] theorem isNotFound_corruption (msg : Bytes) : (corruption msg).isNotFound = false := rfl

@[simp] theorem isNotFound_ioError (msg : Bytes) : (ioError msg).isNotFound = false := rfl

end Status

/-! ### The state of an engine -/

/-- **A column family**: a finite map of byte strings, in byte order. -/
abbrev ColumnFamily : Type := Std.ExtTreeMap Bytes Bytes compare

/-- Column families by name. -/
abbrev ColumnFamilies : Type := Std.ExtTreeMap Bytes ColumnFamily compare

/-- What `db_` holds. -/
inductive DbHandle where
  /-- The constructor leaves it uninitialised. -/
  | uninitialised : DbHandle
  /-- A null pointer, as `close` leaves it. -/
  | null : DbHandle
  /-- An open RocksDB. -/
  | opened : DbHandle
  /-- A RocksDB whose `Close` failed: not null, not open. -/
  | closed : DbHandle
  deriving DecidableEq, Repr

/-- The column family RocksDB always has. -/
def kDefaultColumnFamilyName : Bytes := Bytes.ofText "default"

/-- What joins a collection's name and a field in the name of an index family. -/
def index_delimiter_ : Bytes := Bytes.ofText "__index__"

/-- **The storage engine.** -/
structure StorageEngine where
  /-- The RocksDB handle. -/
  db_ : DbHandle
  /-- The families a handle is held of, with the contents each handle designates. -/
  columnFamilies_ : ColumnFamilies
  /-- What the path holds while no database is open on it. -/
  disk : ColumnFamilies
  /-- Handles are held only while the database is open. -/
  families_eq_empty : db_ ≠ .opened → columnFamilies_ = ∅

namespace StorageEngine

/-- The engine of a new database, just opened: RocksDB's default family and nothing
else. -/
def fresh : StorageEngine where
  db_ := .opened
  columnFamilies_ := Std.ExtTreeMap.empty.insert kDefaultColumnFamilyName ∅
  disk := ∅
  families_eq_empty := fun h => absurd rfl h

/-- The engine with other contents, where it is open. -/
def withFamilies (e : StorageEngine) (m : ColumnFamilies) : StorageEngine :=
  if h : e.db_ = .opened then
    { e with columnFamilies_ := m, families_eq_empty := fun hne => absurd h hne }
  else e

variable (e : StorageEngine)

/-! ### The methods -/

/-- `StorageEngine::open`: every family of the path gets a handle. A path that is open
already is locked. -/
def «open» (fault : Option Bytes) : Status × StorageEngine :=
  match fault with
  | some text => (.ioError text, e)
  | none =>
    if e.db_ = .opened then
      (.ioError (Bytes.ofText "IO error: lock hold by current process"), e)
    else
      -- a path that has no family yet gets the default one
      let families :=
        if e.disk.isEmpty then e.disk.insert kDefaultColumnFamilyName ∅ else e.disk
      (.OK, { e with
        db_ := .opened, columnFamilies_ := families, families_eq_empty := fun h => absurd rfl h })

/-- `StorageEngine::close`: flushing and syncing report to nobody, the handles go, and
then RocksDB is closed. -/
def close (fault : Option Bytes) : Except Exn Status × StorageEngine :=
  match e.db_ with
  | .uninitialised => (.error (.undefined .engineHandle), e)
  | .null => (.ok .OK, e)
  | _ =>
    let disk := if e.db_ = .opened then e.columnFamilies_ else e.disk
    match fault with
    | some text =>
      (.ok (.ioError text),
        { db_ := .closed, columnFamilies_ := ∅, disk, families_eq_empty := fun _ => rfl })
    | none =>
      (.ok .OK, { db_ := .null, columnFamilies_ := ∅, disk, families_eq_empty := fun _ => rfl })

/-- `StorageEngine::createCollection`. -/
def createCollection (fault : Option Bytes) (name : Bytes) : Except Exn Status × StorageEngine :=
  if name ∈ e.columnFamilies_ then
    (.ok (.invalidArgument (Bytes.ofText "Collection already exists: " ++ name)), e)
  else if e.db_ ≠ .opened then (.error (.undefined .engineHandle), e)
  else match fault with
    | some text => (.ok (.ioError text), e)
    | none => (.ok .OK, e.withFamilies (e.columnFamilies_.insert name ∅))

/-- `StorageEngine::dropCollection`: RocksDB never drops its default family. -/
def dropCollection (fault : Option Bytes) (name : Bytes) : Status × StorageEngine :=
  if name ∈ e.columnFamilies_ then
    if name = kDefaultColumnFamilyName then
      (.ioError (Bytes.ofText "Invalid argument: Can't drop default column family"), e)
    else match fault with
      | some text => (.ioError text, e)
      | none => (.OK, e.withFamilies (e.columnFamilies_.erase name))
  else (.notFound (Bytes.ofText "Collection not found: " ++ name), e)

/-- `StorageEngine::put` and, with a string for a value, `StorageEngine::putIndex`. -/
def put (fault : Option Bytes) (collection key value : Bytes) : Status × StorageEngine :=
  match e.columnFamilies_[collection]? with
  | none => (.notFound (Bytes.ofText "Collection not found: " ++ collection), e)
  | some cf => match fault with
    | some text => (.ioError text, e)
    | none => (.OK, e.withFamilies (e.columnFamilies_.insert collection (cf.insert key value)))

/-- `StorageEngine::get`: the value is assigned only where the status is OK. -/
def get (fault : Option Bytes) (collection key : Bytes) : Except Status Bytes :=
  match e.columnFamilies_[collection]? with
  | none => .error (.notFound (Bytes.ofText "Collection not found: " ++ collection))
  | some cf => match fault with
    | some text => .error (.ioError text)
    | none => match cf[key]? with
      | none => .error (.notFound (Bytes.ofText "Key not found: " ++ key))
      | some value => .ok value

/-- `StorageEngine::remove`: a key that is not there is removed all the same. -/
def remove (fault : Option Bytes) (collection key : Bytes) : Status × StorageEngine :=
  match e.columnFamilies_[collection]? with
  | none => (.notFound (Bytes.ofText "Collection not found: " ++ collection), e)
  | some cf => match fault with
    | some text => (.ioError text, e)
    | none => (.OK, e.withFamilies (e.columnFamilies_.insert collection (cf.erase key)))

/-- `StorageEngine::collectionExists`. -/
def collectionExists (name : Bytes) : Bool := e.columnFamilies_.contains name

/-- `StorageEngine::getCollectionNames`: the families that are neither the default one
nor named like an index. -/
def getCollectionNames : List Bytes :=
  e.columnFamilies_.keys.filter fun name =>
    name != kDefaultColumnFamilyName && (Bytes.find index_delimiter_ name).isNone

/-- The collection and the field an index family's name is split into: at the first
occurrence of the delimiter. -/
def splitIndexName (name : Bytes) : Option (Bytes × Bytes) :=
  if name = kDefaultColumnFamilyName then none
  else (Bytes.find index_delimiter_ name).map fun pos =>
    (name.take pos, name.drop (pos + index_delimiter_.length))

/-- `StorageEngine::getIndexNames`: the fields of the index families whose name splits
to the collection, in key order. -/
def getIndexNames (collectionName : Bytes) : List Bytes :=
  e.columnFamilies_.keys.filterMap fun name =>
    (splitIndexName name).bind fun (collection, index) =>
      if collection = collectionName then some index else none

/-- What a `Cursor` walks: the entries of the family as they are when it is created, in
key order, and none where the family has no handle. -/
def cursor (collection : Bytes) : List (Bytes × Bytes) :=
  match e.columnFamilies_[collection]? with
  | none => []
  | some cf => cf.toList

/-- What a `Cursor` walks whose iterator meets an error after so many entries, or none: it
is not valid from there on, and the status of the iterator is not asked for. -/
def walk (collection : Bytes) (cut : Option ℕ) : List (Bytes × Bytes) :=
  match cut with
  | none => e.cursor collection
  | some n => (e.cursor collection).take n

theorem mem_cursor_of_mem_walk {e : StorageEngine} {collection : Bytes} {cut : Option ℕ}
    {x : Bytes × Bytes} (h : x ∈ e.walk collection cut) : x ∈ e.cursor collection := by
  cases cut with
  | none => exact h
  | some n => exact List.mem_of_mem_take h

end StorageEngine

end AnuDB
