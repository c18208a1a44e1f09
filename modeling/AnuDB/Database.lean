import AnuDB.DocumentMap

/-!
# Databases and sessions

A `Database` keeps the collection objects it has handed out. That is a cache only: what
exists is what the engine holds. But the objects have a destructor that drops indexes,
so it matters when one leaves the cache – on `close`, on `dropCollection`, and when
`createCollection` puts another one in its place.

`dropCollection` puts the collection back into the cache it has just taken it from: it
asks `getCollection` for the object to delete indexes with, and does not look whether
there is one.

A session (`AnuDB.Session`) is a database and its engine. It takes a step at every call
that comes back, by returning or by an exception; a call into undefined behaviour, or one
the process does not survive, ends it.
-/

namespace AnuDB

open Effect

/-- `Database`. -/
structure Database where
  /-- Whether `open` was called last, or `close`. -/
  isDbOpen_ : Bool
  /-- The collection objects that have been handed out. -/
  collections_ : List Collection

namespace Database

/-- `collections_.find(name)`. -/
def find (db : Database) (name : Bytes) : Option Collection :=
  db.collections_.find? fun c => c.name_ = name

/-- The object of a name leaves the cache; where it does, it is destroyed. -/
def erase (db : Database) (name : Bytes) : Engine Database :=
  match db.find name with
  | none => pure db
  | some c => do
    c.destroy
    return { db with collections_ := db.collections_.filter fun c => c.name_ ≠ name }

/-- `collections_.clear()`: the objects are destroyed one after the other. -/
def destroyAll : List Collection → Engine Unit
  | [] => pure ()
  | c :: collections => do
    c.destroy
    destroyAll collections

/-- `Database::open`. -/
def «open» (db : Database) : Engine (Status × Database) := do
  let status ← Engine.open
  return (status, { db with isDbOpen_ := true })

/-- `Database::close`. -/
def close (db : Database) : Engine (Status × Database) := do
  destroyAll db.collections_
  let status ← Engine.close
  return (status, { isDbOpen_ := false, collections_ := [] })

/-- `Database::createCollection`: an object that is in the cache under the name is
replaced. -/
def createCollection (db : Database) (name : Bytes) : Engine (Status × Database) := do
  let status ← Engine.createCollection name
  if status.ok then
    let db ← db.erase name
    return (.OK, { db with collections_ := ⟨name⟩ :: db.collections_ })
  else return (status, db)

/-- `Database::getCollection`. -/
def getCollection (db : Database) (name : Bytes) : Engine (Option Collection × Database) :=
  match db.find name with
  | some c => pure (some c, db)
  | none => do
    if ← Engine.collectionExists name then
      return (some ⟨name⟩, { db with collections_ := ⟨name⟩ :: db.collections_ })
    else return (none, db)

/-- `Database::dropCollection`: the pointer `getCollection` returns is used as it is. -/
def dropCollection (db : Database) (name : Bytes) : Engine (Status × Database) := do
  let db ← db.erase name
  let (col, db) ← db.getCollection name
  match col with
  | none => .raise (.undefined .nullCollection)
  | some col => do
    let indexes ← col.getIndex
    col.deleteIndexes indexes
    let status ← Engine.dropCollection name
    return (status, db)

end Database

/-! ### Sessions -/

/-- **A session**: a database, and its engine. -/
structure Session where
  /-- The database. -/
  database : Database
  /-- Its engine. -/
  engine : StorageEngine

/-- The calls of a session. -/
inductive SessionCall where
  | «open» : SessionCall
  | close : SessionCall
  | createCollection (name : Bytes) : SessionCall
  | dropCollection (name : Bytes) : SessionCall
  | getCollection (name : Bytes) : SessionCall
  /-- A call on a collection that was handed out. -/
  | collection (c : Collection) (call : CollectionCall) : SessionCall

/-- The call, made: what is left of the database when it returns. -/
def SessionCall.perform (codec : Codec) (db : Database) : SessionCall → Engine Database
  | .open => Prod.snd <$> db.open
  | .close => Prod.snd <$> db.close
  | .createCollection name => Prod.snd <$> db.createCollection name
  | .dropCollection name => Prod.snd <$> db.dropCollection name
  | .getCollection name => Prod.snd <$> db.getCollection name
  | .collection c call => do
    let _ ← (call.operation c).perform codec
    return db

/-- **A step of a session.** Only calls on collections throw exceptions, and they leave the
database as it is. -/
def Session.Step (codec : Codec) (s : Session) (call : SessionCall) (s' : Session) : Prop :=
  (∀ c call', call = .collection c call' → c ∈ s.database.collections_) ∧
  ∃ fates outcome w', (call.perform codec s.database).run ⟨s.engine, fates⟩ = (outcome, w') ∧
    w'.engine = s'.engine ∧
    (outcome = .ret s'.database ∨
      (∃ what, outcome = .raise (.exception what)) ∧ s'.database = s.database)

/-- The engine of a path with nothing on it, before it is opened. -/
def StorageEngine.unopened : StorageEngine where
  db_ := .uninitialised
  columnFamilies_ := ∅
  disk := ∅
  families_eq_empty := fun _ => rfl

/-- A database object on a new path. -/
def Session.new : Session := ⟨⟨false, []⟩, .unopened⟩

/-- **The states a new database comes to**, by calls in any order, with any outcome. -/
def Session.Reachable (codec : Codec) (s : Session) : Prop :=
  ∃ history, History.Run (Session.Step codec) .new history s

namespace Session

variable {codec : Codec} {s s' : Session}

theorem reachable_new : Session.new.Reachable codec := ⟨[], .nil⟩

theorem Reachable.step {call : SessionCall} (h : s.Reachable codec) (hstep : s.Step codec call s') :
    s'.Reachable codec := by
  obtain ⟨history, hrun⟩ := h
  exact ⟨history ++ [call], hrun.snoc hstep⟩

/-- The session after a call that returns, where every call to RocksDB goes through. -/
def after (codec : Codec) (s : Session) (call : SessionCall) : Session :=
  match (call.perform codec s.database).run (.calm s.engine) with
  | (.ret db, w) => ⟨db, w.engine⟩
  | (_, w) => ⟨s.database, w.engine⟩

/-- Whether the call can be made, and returns where every call to RocksDB goes through. -/
def returns (codec : Codec) (s : Session) (call : SessionCall) : Bool :=
  (match call with
    | .collection c _ => decide (c ∈ s.database.collections_)
    | _ => true) &&
  match ((call.perform codec s.database).run (.calm s.engine)).1 with
    | .ret _ => true
    | _ => false

/-- The session after the calls, one after the other. -/
def afterAll (codec : Codec) (s : Session) (calls : List SessionCall) : Session :=
  calls.foldl (after codec) s

/-- Whether the calls can be made and all return, one after the other. -/
def returnsAll (codec : Codec) : Session → List SessionCall → Bool
  | _, [] => true
  | s, call :: calls => s.returns codec call && returnsAll codec (s.after codec call) calls

theorem Reachable.after {call : SessionCall} (h : s.Reachable codec)
    (hreturns : s.returns codec call = true) : (s.after codec call).Reachable codec := by
  obtain ⟨hc, hret⟩ := Bool.and_eq_true_iff.mp hreturns
  rcases hrun : (call.perform codec s.database).run (.calm s.engine) with ⟨db | exn | _, w⟩
  · refine h.step ⟨?_, Stream'.const .ok, _, _, hrun, ?_, Or.inl ?_⟩
    · rintro c call' rfl
      exact of_decide_eq_true hc
    · rw [Session.after, hrun]
    · rw [Session.after, hrun]
  · simp [hrun] at hret
  · simp [hrun] at hret

theorem Reachable.afterAll {calls : List SessionCall} (h : s.Reachable codec)
    (hreturns : s.returnsAll codec calls = true) : (s.afterAll codec calls).Reachable codec := by
  induction calls generalizing s with
  | nil => exact h
  | cons call calls ih =>
    obtain ⟨hcall, hcalls⟩ := Bool.and_eq_true_iff.mp hreturns
    exact ih (h.after hcall) hcalls

end Session

end AnuDB
