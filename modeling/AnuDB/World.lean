import AnuDB.Lib.Prog
import AnuDB.StorageEngine

/-!
# Programs of engine calls, and the worlds they run in

Everything above the storage engine is a program of calls to it: `AnuDB.Engine` is
`Effect.Prog` at the calls of this file. What a call does is `AnuDB.StorageEngine.exec`.

A world is an engine and a stream of fates, one for each call to come. A call may go
through, RocksDB may refuse it with a text, or the process may stop before it. What is
proved about every stream of fates is proved about every way calls can be refused and
a process can end. Some calls have no status to refuse with, and go through whatever their
fate, unless the process stops: listing the indexes asks RocksDB nothing, and a cursor gives
no sign of an error of its iterator but that it is at its end. Where that is, is part of the
call (`AnuDB.StorageEngine.walk`).
-/

namespace AnuDB

open Effect

/-- The calls to the storage engine. -/
inductive Call where
  | «open» : Call
  | close : Call
  | createCollection (name : Bytes) : Call
  | dropCollection (name : Bytes) : Call
  | put (collection key value : Bytes) : Call
  | get (collection key : Bytes) : Call
  | remove (collection key : Bytes) : Call
  | collectionExists (name : Bytes) : Call
  | getCollectionNames : Call
  | getIndexNames (collection : Bytes) : Call
  /-- A cursor is created, and walked to its end; its iterator may meet an error on the way. -/
  | cursor (collection : Bytes) (cut : Option ℕ) : Call

/-- What a call replies. -/
@[reducible] def Call.Reply : Call → Type
  | .open => Status
  | .close => Except Exn Status
  | .createCollection _ => Except Exn Status
  | .dropCollection _ => Status
  | .put .. => Status
  | .get .. => Except Status Bytes
  | .remove .. => Status
  | .collectionExists _ => Bool
  | .getCollectionNames => List Bytes
  | .getIndexNames _ => List Bytes
  | .cursor .. => List (Bytes × Bytes)

/-- **What a call does**: its reply, and the engine it leaves. -/
def StorageEngine.exec (e : StorageEngine) (fault : Option Bytes) :
    (c : Call) → c.Reply × StorageEngine
  | .open => e.open fault
  | .close => e.close fault
  | .createCollection name => e.createCollection fault name
  | .dropCollection name => e.dropCollection fault name
  | .put collection key value => e.put fault collection key value
  | .get collection key => (e.get fault collection key, e)
  | .remove collection key => e.remove fault collection key
  | .collectionExists name => (e.collectionExists name, e)
  | .getCollectionNames => (e.getCollectionNames, e)
  | .getIndexNames collection => (e.getIndexNames collection, e)
  | .cursor collection cut => (e.walk collection cut, e)

/-! ### Worlds -/

/-- What happens at a call. -/
inductive Fate where
  /-- RocksDB does what it is asked. -/
  | ok : Fate
  /-- RocksDB refuses, with a text. -/
  | fail (text : Bytes) : Fate
  /-- The process stops before the call. -/
  | stop : Fate
  deriving DecidableEq

/-- How RocksDB meets the call: not at all, or with a refusal or none. -/
def Fate.fault? : Fate → Option (Option Bytes)
  | .ok => some none
  | .fail text => some (some text)
  | .stop => none

@[simp] theorem Fate.fault?_eq_none_iff {fate : Fate} : fate.fault? = none ↔ fate = .stop := by
  cases fate <;> simp [fault?]

/-- **A world**: an engine, and the fates of the calls to come. -/
structure World where
  /-- The engine. -/
  engine : StorageEngine
  /-- The fates of the calls to come. -/
  fates : Stream' Fate

namespace World

/-- The world with the fate of one call used up. -/
def next (w : World) (e : StorageEngine) : World := ⟨e, w.fates.tail⟩

@[simp] theorem next_engine (w : World) (e : StorageEngine) : (w.next e).engine = e := rfl

@[simp] theorem next_fates (w : World) (e : StorageEngine) :
    (w.next e).fates = w.fates.tail := rfl

/-- The world in which every call goes through. -/
def calm (e : StorageEngine) : World := ⟨e, Stream'.const .ok⟩

/-- The world in which RocksDB refuses the calls it is said to refuse, and the process
does not stop. -/
def refusing (e : StorageEngine) (refusals : Stream' (Option Bytes)) : World :=
  ⟨e, refusals.map fun r => r.elim .ok .fail⟩

/-- **How a world answers a call.** -/
def handle : Handler Call Call.Reply World := fun c w =>
  w.fates.head.fault?.map fun fault =>
    ((w.engine.exec fault c).1, w.next (w.engine.exec fault c).2)

@[simp] theorem next_calm (e e' : StorageEngine) : (calm e).next e' = calm e' := rfl

@[simp] theorem handle_calm (e : StorageEngine) (c : Call) :
    handle c (calm e) = some ((e.exec none c).1, calm (e.exec none c).2) := rfl

@[simp] theorem handle_refusing (e : StorageEngine) (refusals : Stream' (Option Bytes))
    (c : Call) : handle c (refusing e refusals) = some ((e.exec refusals.head c).1,
      refusing (e.exec refusals.head c).2 refusals.tail) := by
  have hfault : (refusing e refusals).fates.head.fault? = some refusals.head := by
    change Fate.fault? (Option.elim refusals.head .ok .fail) = _
    cases refusals.head <;> rfl
  rw [handle, hfault]
  rfl

/-- Whatever is answered was done, to the engine, by the call. -/
theorem exists_fault_of_handle {c : Call} {w w' : World} {r : c.Reply}
    (h : handle c w = some (r, w')) :
    ∃ fault, w.engine.exec fault c = (r, w'.engine) ∧ w'.fates = w.fates.tail := by
  obtain ⟨fault, -, hr⟩ := Option.map_eq_some_iff.mp h
  obtain ⟨rfl, rfl⟩ := Prod.mk.inj hr
  exact ⟨fault, rfl, rfl⟩

end World

/-! ### Programs -/

/-- A program of engine calls. -/
abbrev Engine (α : Type) : Type := Prog Call Call.Reply Exn α

namespace Engine

/-- The run of a program in a world. -/
abbrev run {α : Type} (p : Engine α) (w : World) : Outcome Exn α × World :=
  Prog.run World.handle p w

/-- `StorageEngine::open`, called. -/
def «open» : Engine Status := Prog.perform Call.open

/-- `StorageEngine::close`, called. -/
def close : Engine Status := do
  let r ← Prog.perform Call.close
  Prog.ofExcept r

/-- `StorageEngine::createCollection`, called. -/
def createCollection (name : Bytes) : Engine Status := do
  let r ← Prog.perform (Call.createCollection name)
  Prog.ofExcept r

/-- `StorageEngine::dropCollection`, called. -/
def dropCollection (name : Bytes) : Engine Status := Prog.perform (Call.dropCollection name)

/-- `StorageEngine::put`, called. -/
def put (collection key value : Bytes) : Engine Status :=
  Prog.perform (Call.put collection key value)

/-- `StorageEngine::putIndex`, called: it is `put` with a string for a value. -/
def putIndex (collection key value : Bytes) : Engine Status := put collection key value

/-- `StorageEngine::get`, called. -/
def get (collection key : Bytes) : Engine (Except Status Bytes) :=
  Prog.perform (Call.get collection key)

/-- `StorageEngine::remove`, called. -/
def remove (collection key : Bytes) : Engine Status := Prog.perform (Call.remove collection key)

/-- `StorageEngine::collectionExists`, called. -/
def collectionExists (name : Bytes) : Engine Bool := Prog.perform (Call.collectionExists name)

/-- `StorageEngine::getCollectionNames`, called. -/
def getCollectionNames : Engine (List Bytes) := Prog.perform Call.getCollectionNames

/-- `StorageEngine::getIndexNames`, called. -/
def getIndexNames (collection : Bytes) : Engine (List Bytes) :=
  Prog.perform (Call.getIndexNames collection)

/-- A cursor, created. -/
def cursor (collection : Bytes) (cut : Option ℕ) : Engine (List (Bytes × Bytes)) :=
  Prog.perform (Call.cursor collection cut)

variable {α : Type} {w : World}

/-- The run of a call followed by the rest. -/
theorem run_call_bind (x : Call) (k : x.Reply → Engine α) :
    (Prog.perform x >>= k : Engine α).run w = match w.fates.head.fault? with
      | none => (.stopped, w)
      | some fault => (k (w.engine.exec fault x).1).run (w.next (w.engine.exec fault x).2) := by
  simp only [run, Prog.run_perform_bind, World.handle]
  cases w.fates.head.fault? <;> rfl

/-- A call that goes through, followed by the rest. -/
theorem run_call_bind_calm (e : StorageEngine) (x : Call) (k : x.Reply → Engine α) :
    (Prog.perform x >>= k : Engine α).run (.calm e) =
      (k (e.exec none x).1).run (.calm (e.exec none x).2) := by
  simp only [run, Prog.run_perform_bind, World.handle_calm]

/-- The list of indexes is read whatever RocksDB would say. -/
theorem run_getIndexNames_bind (c : Bytes) (k : List Bytes → Engine α) :
    (getIndexNames c >>= k).run w =
      if w.fates.head = .stop then (.stopped, w)
      else (k (w.engine.getIndexNames c)).run (w.next w.engine) := by
  rw [getIndexNames, run_call_bind]
  cases w.fates.head <;> rfl

end Engine

end AnuDB
