import AnuDB.Cache
import AnuDB.Interference

/-!
# When is the RocksDB handle used?

`db_` is used without a guard of its own. A method that works on a family looks the family up
first, and no family is held while no database is open; so it is safe whatever `db_` is. Two
methods are not: `createCollection` uses `db_` if it does *not* find the family, and `close` if
it is not null, which it is neither before the first `open` nor after a `Close` that failed.

`isDbOpen_` is set by `Database::open` before the engine is asked, whatever the engine answers,
and the constructor does not set it at all.

The runs are those of every database object, from its construction on (`AnuDB.Watched`), with
what the last `open` reported and whether a `close` has followed kept beside it
(`AnuDB.Watched.handle_iff`).
-/

namespace AnuDB

open Effect

/-! ### Engine calls and the handle -/

/-- **The call dereferences the handle**, or reads it to see whether it is null. -/
def Call.UsesHandle (e : StorageEngine) : Call → Prop
  | .close => e.db_ ≠ .null
  | .createCollection name => name ∉ e.columnFamilies_
  | .dropCollection name => name ∈ e.columnFamilies_
  | .put collection _ _ => collection ∈ e.columnFamilies_
  | .get collection _ => collection ∈ e.columnFamilies_
  | .remove collection _ => collection ∈ e.columnFamilies_
  | .cursor collection _ => collection ∈ e.columnFamilies_
  | _ => False

/-- The call uses a handle that is uninitialised, null or closed. -/
def Call.Misuses (x : Call) (w : World) : Prop := x.UsesHandle w.engine ∧ w.engine.db_ ≠ .opened

/-- The calls that work on a family that is there, or on none. -/
def Call.OnFamily : Call → Prop
  | .open => False
  | .close => False
  | .createCollection _ => False
  | _ => True

/-- The calls that neither open nor close. -/
def Call.KeepsHandle : Call → Prop
  | .open => False
  | .close => False
  | _ => True

theorem Call.OnFamily.keepsHandle {x : Call} (h : x.OnFamily) : x.KeepsHandle := by
  cases x <;> trivial

/-- A call that works on a family never misuses the handle: there are families only while the
database is open. -/
theorem Call.OnFamily.not_misuses {x : Call} (h : x.OnFamily) (w : World) : ¬x.Misuses w := by
  rintro ⟨huses, hdb⟩
  have hnone (n : Bytes) : n ∉ w.engine.columnFamilies_ := by
    rw [w.engine.families_eq_empty hdb]
    exact Std.ExtTreeMap.not_mem_empty
  cases x with
  | «open» => exact h
  | close => exact h
  | createCollection name => exact h
  | collectionExists name => exact huses
  | getCollectionNames => exact huses
  | getIndexNames collection => exact huses
  | dropCollection name => exact hnone _ huses
  | put collection key value => exact hnone _ huses
  | get collection key => exact hnone _ huses
  | remove collection key => exact hnone _ huses
  | cursor collection cut => exact hnone _ huses

namespace StorageEngine

variable {e : StorageEngine}

theorem db_exec {x : Call} (h : x.KeepsHandle) (fault : Option Bytes) :
    (e.exec fault x).2.db_ = e.db_ := by
  cases x with
  | «open» => exact h.elim
  | close => exact h.elim
  | createCollection name =>
    rcases e.createCollection_cases fault name with ⟨hc, -⟩ | ⟨status, hc, -⟩ | ⟨hc, -⟩
    · rw [exec, hc]
    · rw [exec, hc]
    · rw [exec, hc]
      exact db_withFamilies
  | dropCollection name =>
    simp only [exec, dropCollection]
    split_ifs
    · rfl
    · cases fault with
      | some text => rfl
      | none => exact db_withFamilies
    · rfl
  | put collection key value =>
    simp only [exec, put]
    rcases e.columnFamilies_[collection]? with _ | cf
    · rfl
    · cases fault with
      | some text => rfl
      | none => exact db_withFamilies
  | remove collection key =>
    simp only [exec, remove]
    rcases e.columnFamilies_[collection]? with _ | cf
    · rfl
    · cases fault with
      | some text => rfl
      | none => exact db_withFamilies
  | _ => rfl

end StorageEngine

namespace Engine

variable {α : Type} {p : Engine α} {w : World}

/-- A program that neither opens nor closes leaves the handle. -/
theorem db_run (h : p.Uses Call.KeepsHandle) : (p.run w).2.engine.db_ = w.engine.db_ := by
  refine Prog.run_of_uses (I := fun s t => t.engine.db_ = s.engine.db_) (fun _ => rfl) ?_ ?_ h w
  · intro s t u hst htu
    exact htu.trans hst
  · intro x s r s' hx hhandle
    obtain ⟨fault, hexec, -⟩ := World.exists_fault_of_handle hhandle
    have hdb := StorageEngine.db_exec (e := s.engine) hx fault
    rwa [hexec] at hdb

/-- On an open database it does not misuse it. -/
theorem avoids_of_opened (h : p.Uses Call.KeepsHandle) (hdb : w.engine.db_ = .opened) :
    p.Avoids World.handle Call.Misuses w := by
  refine h.avoids (I := fun w => w.engine.db_ = .opened) (fun x w _ hw hx => hx.2 hw) ?_ hdb
  intro x w r w' hx hw hhandle
  obtain ⟨fault, hexec, -⟩ := World.exists_fault_of_handle hhandle
  have hkept := StorageEngine.db_exec (e := w.engine) hx fault
  rw [hexec] at hkept
  exact hkept.trans hw

/-- One that works on families does not misuse it anywhere. -/
theorem avoids_of_onFamily (h : p.Uses Call.OnFamily) : p.Avoids World.handle Call.Misuses w :=
  h.avoids (I := fun _ => True) (fun _ w hx _ => hx.not_misuses w) (fun _ _ _ _ _ _ _ => trivial)
    trivial

end Engine

/-! ### What a collection's methods use -/

/-- The methods of a collection neither open nor close: they touch families by name. -/
theorem Call.Within.keepsHandle {c : Bytes} {x : Call} (h : x.Within c) : x.KeepsHandle := by
  -- opening and closing touch every name, and only some of them are within a collection
  have hname : ¬(c ++ [0] = c ∨ ∃ f, c ++ [0] = indexFamily c f) := by
    rintro (h | ⟨f, hf⟩)
    · simp at h
    rw [indexFamily, List.append_assoc, List.append_cancel_left_eq] at hf
    have hlength := congrArg List.length hf
    rw [List.length_append, length_index_delimiter_, List.length_singleton] at hlength
    omega
  cases x with
  | «open» => exact hname (h _ trivial)
  | close => exact hname (h _ trivial)
  | _ => trivial

theorem CollectionCall.keepsHandle {codec : Codec} {c : Collection} (call : CollectionCall) :
    ((call.operation c).perform codec).Uses Call.KeepsHandle := by
  cases call with
  | document call => exact call.uses_perform.mono fun x => Call.Within.keepsHandle
  | createIndex index =>
    exact (Collection.uses_createIndex none index).mono fun x h => h.within.keepsHandle
  | deleteIndex index =>
    exact (Collection.uses_deleteIndex index).mono fun x h => h.within.keepsHandle

/-! ### What is done with a database -/

/-- **What is done with a database object.** -/
inductive Use where
  /-- A call of a session. -/
  | call (call : SessionCall) : Use
  /-- Another method of a collection that was handed out: one that reads, or writes to
  families. It is any program of such engine calls. -/
  | method (c : Collection) (p : Engine Unit) : Use

namespace Use

/-- What is left of the database when it returns. -/
def perform (codec : Codec) (db : Database) : Use → Engine Database
  | .call x => x.perform codec db
  | .method _ p => do
    p
    return db

/-- A method is one of a collection that has been handed out, and is there still. -/
def Allowed (s : Session) : Use → Prop
  | .call (.collection c _) => c ∈ s.database.collections_
  | .call _ => True
  | .method c p => c ∈ s.database.collections_ ∧ p.Uses Call.OnFamily

/-- **The condition on a use**, where it is made: the handle is one that can be used, if it is
`close` or makes or drops a collection. -/
def Ready (e : StorageEngine) : Use → Prop
  | .call .close => e.db_ = .opened ∨ e.db_ = .null
  | .call (.createCollection _) => e.db_ = .opened
  | .call (.dropCollection _) => e.db_ = .opened
  | _ => True

end Use

/-- **A database object, watched.** -/
structure Watched where
  /-- The session. -/
  session : Session
  /-- Whether the last `open` has succeeded, and no `close` has followed. -/
  inForce : Bool

namespace Watched

/-- A database object on a new path, right after its construction: `isDbOpen_` has some
value. -/
def constructed (isDbOpen_ : Bool) : Watched := ⟨⟨⟨isDbOpen_, []⟩, .unopened⟩, false⟩

/-- Whether an `open` is in force after the use, by what `open` reports. -/
def inForceAfter (w : Watched) (r : Stream' (Option Bytes)) : Use → Bool
  | .call .open =>
    match (w.session.database.open.run (.refusing w.session.engine r)).1 with
    | .ret (status, _) => status.ok
    | _ => w.inForce
  | .call .close => false
  | _ => w.inForce

/-- **A step**: something is done that returns, or throws. -/
def Step (codec : Codec) (w : Watched) (x : Use × Stream' (Option Bytes)) (w' : Watched) :
    Prop :=
  x.1.Allowed w.session ∧
  (∃ outcome v, (x.1.perform codec w.session.database).run (.refusing w.session.engine x.2) =
      (outcome, v) ∧ v.engine = w'.session.engine ∧
    (outcome = .ret w'.session.database ∨
      (∃ what, outcome = .raise (.exception what)) ∧ w'.session.database = w.session.database)) ∧
  w'.inForce = w.inForceAfter x.2 x.1

/-- **`isDbOpen` tells** whether an `open` is in force. -/
def FlagAgrees (w : Watched) : Prop := w.session.database.isDbOpen_ = w.inForce

/-- **The handle is not misused**, and where it cannot be used the call returns. -/
def Safe (codec : Codec) (w : Watched) (x : Use × Stream' (Option Bytes)) : Prop :=
  (x.1.perform codec w.session.database).Avoids World.handle Call.Misuses
    (.refusing w.session.engine x.2) ∧
  (w.session.engine.db_ ≠ .opened → ∃ db, ((x.1.perform codec w.session.database).run
    (.refusing w.session.engine x.2)).1 = .ret db)

/-- **The condition on an `open`**: RocksDB does not refuse, and the database is not open. -/
def Opens (w : Watched) (x : Use × Stream' (Option Bytes)) : Prop :=
  match x.1 with
  | .call .open => x.2.head = none ∧ w.session.engine.db_ ≠ .opened
  | _ => True

/-- Objects are in the cache only while the database is open. -/
def Guarded (w : Watched) : Prop :=
  w.session.database.collections_ ≠ [] → w.session.engine.db_ = .opened

end Watched

/-! ### The calls that keep the handle -/

namespace Database

variable {db : Database} {name : Bytes}

theorem keepsHandle_erase : (db.erase name).Uses Call.KeepsHandle :=
  uses_erase.mono fun _ h => h.within.keepsHandle

theorem keepsHandle_createCollection : (db.createCollection name).Uses Call.KeepsHandle := by
  refine Prog.Uses.bind (Prog.Uses.bind (Prog.uses_perform.mpr trivial) fun r =>
    Prog.uses_ofExcept r) fun status => ?_
  split_ifs
  · exact Prog.Uses.bind keepsHandle_erase fun db => Prog.uses_pure _
  · trivial

theorem keepsHandle_dropCollection : (db.dropCollection name).Uses Call.KeepsHandle :=
  uses_dropCollection.mono fun _ => Call.Within.keepsHandle

/-- Obtaining a collection asks the engine whether there is a family. -/
theorem onFamily_getCollection : (db.getCollection name).Uses Call.OnFamily := by
  rw [getCollection]
  rcases db.find name with _ | c
  · refine Prog.Uses.bind (Prog.uses_perform.mpr trivial) fun found => ?_
    split_ifs <;> trivial
  · trivial

theorem keepsHandle_destroyAll (collections : List Collection) :
    (destroyAll collections).Uses Call.KeepsHandle := by
  induction collections with
  | nil => trivial
  | cons c collections ih =>
    exact Prog.Uses.bind (Collection.uses_destroy.mono fun x h => h.within.keepsHandle) fun _ => ih

end Database

namespace StorageEngine

variable {e e' : StorageEngine} {fault : Option Bytes}

theorem open_ok_iff : (e.open fault).1.ok = true ↔ fault = none ∧ e.db_ ≠ .opened := by
  cases fault with
  | some text => simp [StorageEngine.open]
  | none =>
    simp only [StorageEngine.open]
    split_ifs with hdb <;> simp [hdb]

theorem db_open_of_opened (hdb : e.db_ = .opened) (fault : Option Bytes) :
    (e.open fault).2.db_ = .opened := by
  cases fault with
  | some text => exact hdb
  | none => simpa only [StorageEngine.open, if_pos hdb] using hdb

/-- Closing ends in undefined behaviour where the handle has no value. -/
theorem close_eq_error {exn : Exn} (h : e.close fault = (.error exn, e')) :
    exn = .undefined .engineHandle := by
  simp only [StorageEngine.close] at h
  rcases hdb : e.db_ with _ | _ | _ | _ <;> rw [hdb] at h <;> cases fault <;> simp_all

end StorageEngine

namespace Database

variable {db : Database} {e e' : StorageEngine} {r : Stream' (Option Bytes)}

/-- The run of `close`: the destructors, and then the engine. -/
theorem run_close {status : Status} (h : (e.destroyed r db.collections_).1.close
    (e.destroyed r db.collections_).2.head = (.ok status, e')) :
    db.close.run (.refusing e r) = (.ret (status, ⟨false, []⟩),
      .refusing e' (e.destroyed r db.collections_).2.tail) := by
  rw [close, Engine.run_bind_of_ret (run_destroyAll db.collections_), Engine.close, bind_assoc,
    Engine.run_call_bind_refusing]
  simp only [StorageEngine.exec, h]
  rfl

theorem run_close_of_error {exn : Exn} (h : (e.destroyed r db.collections_).1.close
    (e.destroyed r db.collections_).2.head = (.error exn, e')) :
    db.close.run (.refusing e r) = (.raise exn,
      .refusing e' (e.destroyed r db.collections_).2.tail) := by
  rw [close, Engine.run_bind_of_ret (run_destroyAll db.collections_), Engine.close, bind_assoc,
    Engine.run_call_bind_refusing]
  simp only [StorageEngine.exec, h]
  rfl

end Database

/-- What neither opens nor closes keeps the handle. -/
theorem Use.keepsHandle {codec : Codec} {s : Session} {use : Use} (h : use.Allowed s)
    (hopen : use ≠ .call .open) (hclose : use ≠ .call .close) :
    (use.perform codec s.database).Uses Call.KeepsHandle := by
  rcases use with call | ⟨c, p⟩
  · cases call with
    | «open» => exact absurd rfl hopen
    | close => exact absurd rfl hclose
    | createCollection name =>
      exact Prog.Uses.bind Database.keepsHandle_createCollection fun _ => trivial
    | dropCollection name =>
      exact Prog.Uses.bind Database.keepsHandle_dropCollection fun _ => trivial
    | getCollection name =>
      refine Prog.Uses.bind ?_ fun _ => trivial
      exact Database.onFamily_getCollection.mono fun x h => h.keepsHandle
    | collection c call => exact Prog.Uses.bind call.keepsHandle fun _ => trivial
  · exact Prog.Uses.bind (h.2.mono fun x hx => hx.keepsHandle) fun _ => trivial

/-! ### The steps -/

namespace Watched

variable {codec : Codec} {w w' : Watched} {r : Stream' (Option Bytes)}

/-- A step is a step of the session, where it is a call of it. -/
theorem Step.does {call : SessionCall} (h : w.Step codec (.call call, r) w') :
    w.session.Does codec ⟨call, r⟩ w'.session := by
  refine ⟨?_, h.2.1⟩
  rintro c call' rfl
  exact h.1

/-- What neither opens nor closes leaves the handle. -/
theorem Step.db_eq {x : Use × Stream' (Option Bytes)} (h : w.Step codec x w')
    (hopen : x.1 ≠ .call .open) (hclose : x.1 ≠ .call .close) :
    w'.session.engine.db_ = w.session.engine.db_ := by
  obtain ⟨hallowed, ⟨outcome, v, hrun, hengine, -⟩, -⟩ := h
  have hkeeps : (x.1.perform codec w.session.database).Uses Call.KeepsHandle :=
    x.1.keepsHandle hallowed hopen hclose
  have hdb := Engine.db_run (w := .refusing w.session.engine x.2) hkeeps
  rw [Engine.run] at hrun
  rw [Engine.run, hrun, hengine] at hdb
  exact hdb

/-- Closing empties the cache, and clears the flag. -/
theorem Step.of_close (h : w.Step codec (.call .close, r) w') :
    w'.session.database = ⟨false, []⟩ := by
  rcases hc : ((w.session.engine.destroyed r w.session.database.collections_).1).close
    ((w.session.engine.destroyed r w.session.database.collections_).2).head with ⟨exn | status, e'⟩
  · obtain rfl := StorageEngine.close_eq_error hc
    have hrun := @Database.run_close_of_error w.session.database _ _ _ _ hc
    exact absurd (congrArg Prod.fst (Engine.run_snd hrun)) h.does.ne_undefined
  · have hrun := @Database.run_close w.session.database _ _ _ _ hc
    rw [h.does.eq_of_ret (Engine.run_snd hrun)]

/-- A method of a collection leaves the database object alone. -/
theorem database_of_method {s s' : Session} {α : Type} {p : Engine α} {outcome : Outcome Exn Database}
    {v : World} (hrun : (p >>= fun _ => pure s.database).run (.refusing s.engine r) = (outcome, v))
    (houtcome : outcome = .ret s'.database ∨
      (∃ what, outcome = .raise (.exception what)) ∧ s'.database = s.database) :
    s'.database = s.database := by
  rcases houtcome with rfl | ⟨-, hsame⟩
  · rw [Engine.run, Prog.run_bind] at hrun
    rcases hp : Prog.run World.handle p (.refusing s.engine r) with ⟨a | exn | _, v'⟩
    · rw [hp] at hrun
      exact (Outcome.ret.inj (Prod.mk.inj hrun).1).symm
    · simp [hp] at hrun
    · simp [hp] at hrun
  · exact hsame

/-- What is not opening or closing leaves the flag. -/
theorem Step.isDbOpen_eq {x : Use × Stream' (Option Bytes)} (h : w.Step codec x w')
    (hopen : x.1 ≠ .call .open) (hclose : x.1 ≠ .call .close) :
    w'.session.database.isDbOpen_ = w.session.database.isDbOpen_ := by
  obtain ⟨use, r⟩ := x
  rcases use with call | ⟨c, p⟩
  · cases call with
    | «open» => exact absurd rfl hopen
    | close => exact absurd rfl hclose
    | createCollection name =>
      rcases h.does.of_createCollection with heq | ⟨e', -, -, -, heq⟩
      · rw [heq]
      · rw [heq]
        rfl
    | dropCollection name =>
      rw [h.does.of_dropCollection.2]
      rfl
    | getCollection name =>
      rcases h.does.of_getCollection with heq | ⟨-, -, heq⟩ <;> rw [heq]
    | collection c call =>
      obtain ⟨-, ⟨outcome, v, hrun, -, houtcome⟩, -⟩ := h
      rw [database_of_method hrun houtcome]
  · obtain ⟨-, ⟨outcome, v, hrun, -, houtcome⟩, -⟩ := h
    rw [database_of_method hrun houtcome]

/-! ### The flag -/

/-- **The flag keeps telling the truth** exactly if every `open` succeeds. -/
theorem FlagAgrees.step_iff {x : Use × Stream' (Option Bytes)} (hw : w.FlagAgrees)
    (h : w.Step codec x w') : w'.FlagAgrees ↔ w.Opens x := by
  obtain ⟨use, r⟩ := x
  by_cases hopen : use = .call .open
  · subst hopen
    have hforce : w'.inForce = (w.session.engine.open r.head).1.ok := by
      rw [h.2.2]
      simp only [inForceAfter]
      rw [Database.run_open]
    rw [FlagAgrees, h.does.of_open, hforce, eq_comm, StorageEngine.open_ok_iff]
    rfl
  · have hopens : w.Opens (use, r) := by
      rcases use with call | ⟨c, p⟩
      · cases call with
        | «open» => exact absurd rfl hopen
        | _ => trivial
      · trivial
    refine iff_of_true ?_ hopens
    by_cases hclose : use = .call .close
    · subst hclose
      rw [FlagAgrees, h.of_close, h.2.2]
      rfl
    · have hforce : w'.inForce = w.inForce := by
        rw [h.2.2]
        rcases use with call | ⟨c, p⟩
        · cases call with
          | «open» => exact absurd rfl hopen
          | close => exact absurd rfl hclose
          | _ => rfl
        · rfl
      rw [FlagAgrees, h.isDbOpen_eq hopen hclose, hforce]
      exact hw

/-! ### The cache -/

/-- **Objects are in the cache only while the database is open**, in every state. -/
theorem Guarded.step {x : Use × Stream' (Option Bytes)} (hw : w.Guarded)
    (h : w.Step codec x w') : w'.Guarded := by
  obtain ⟨use, r⟩ := x
  intro hne
  by_cases hopen : use = .call .open
  · subst hopen
    rw [h.does.of_open] at hne ⊢
    exact StorageEngine.db_open_of_opened (hw hne) r.head
  by_cases hclose : use = .call .close
  · subst hclose
    rw [h.of_close] at hne
    exact absurd rfl hne
  rw [h.db_eq hopen hclose]
  -- an object comes into the cache where there is a family of its name
  have hmem {n : Bytes} (hn : n ∈ w.session.engine.columnFamilies_) :
      w.session.engine.db_ = .opened := by
    by_contra hdb
    rw [w.session.engine.families_eq_empty hdb] at hn
    exact Std.ExtTreeMap.not_mem_empty hn
  rcases use with call | ⟨c, p⟩
  · cases call with
    | «open» => exact absurd rfl hopen
    | close => exact absurd rfl hclose
    | createCollection name =>
      rcases h.does.of_createCollection with heq | ⟨e', -, -, hdb, -⟩
      · rw [heq] at hne
        exact hw hne
      · exact hdb
    | dropCollection name => exact hmem h.does.of_dropCollection.1
    | getCollection name =>
      rcases h.does.of_getCollection with heq | ⟨hname, -, -⟩
      · rw [heq] at hne
        exact hw hne
      · exact hmem hname
    | collection c call => exact hw (List.ne_nil_of_mem h.1)
  · exact hw (List.ne_nil_of_mem h.1.1)

/-! ### The handle -/

/-- Where the database is open, no use but `close` can misuse the handle, and none does. -/
theorem avoids_of_opened {x : Use × Stream' (Option Bytes)} (hallowed : x.1.Allowed w.session)
    (hdb : w.session.engine.db_ = .opened) :
    (x.1.perform codec w.session.database).Avoids World.handle Call.Misuses
      (.refusing w.session.engine x.2) := by
  by_cases hopen : x.1 = .call .open
  · rw [hopen]
    exact Prog.avoids_map.mpr ⟨fun hbad => hbad.1, fun _ _ _ => trivial⟩
  by_cases hclose : x.1 = .call .close
  · rw [hclose]
    refine Prog.avoids_map.mpr (Prog.avoids_bind.mpr ⟨?_, fun _ v hrun => ?_⟩)
    · exact Engine.avoids_of_opened (Database.keepsHandle_destroyAll _) hdb
    · have hopened : v.engine.db_ = .opened := by
        have hkept := Engine.db_run (w := .refusing w.session.engine x.2)
          (Database.keepsHandle_destroyAll w.session.database.collections_)
        rw [Engine.run, hrun] at hkept
        exact hkept.trans hdb
      refine Prog.avoids_bind.mpr ⟨Prog.avoids_bind.mpr ⟨?_, fun r _ _ => ?_⟩, fun _ _ _ => trivial⟩
      · exact Prog.avoids_perform.mpr fun hbad => hbad.2 hopened
      · exact Prog.avoids_ofExcept r _
  · exact Engine.avoids_of_opened (x.1.keepsHandle hallowed hopen hclose) hdb

/-- Closing is safe where the handle is null or that of an open database, and there only. -/
theorem safe_close_iff (hw : w.Guarded) :
    w.Safe codec (.call .close, r) ↔
      w.session.engine.db_ = .opened ∨ w.session.engine.db_ = .null := by
  by_cases hdb : w.session.engine.db_ = .opened
  · exact iff_of_true ⟨avoids_of_opened trivial hdb, fun hne => absurd hdb hne⟩ (Or.inl hdb)
  have hempty : w.session.database.collections_ = [] := by
    by_contra hne
    exact hdb (hw hne)
  have hclose : (Use.perform codec w.session.database (.call .close)).Avoids World.handle
      Call.Misuses (.refusing w.session.engine r) ↔ w.session.engine.db_ = .null := by
    rw [Use.perform, SessionCall.perform, Prog.avoids_map, Database.close, hempty]
    constructor
    · intro h
      -- the first thing that is done is to look whether the handle is null
      have hfirst := (Prog.avoids_bind.mp h).2 () (.refusing w.session.engine r) rfl
      have hcall := (Prog.avoids_bind.mp (Prog.avoids_bind.mp hfirst).1).1
      by_contra hnull
      exact Prog.avoids_perform.mp hcall ⟨hnull, hdb⟩
    · intro hnull
      refine Prog.avoids_bind.mpr ⟨Prog.avoids_pure _ _, fun _ v hrun => ?_⟩
      obtain ⟨-, rfl⟩ := Prod.mk.inj hrun
      refine Prog.avoids_bind.mpr ⟨Prog.avoids_bind.mpr ⟨?_, fun r _ _ => ?_⟩, fun _ _ _ => trivial⟩
      · exact Prog.avoids_perform.mpr fun hbad => hbad.1 hnull
      · exact Prog.avoids_ofExcept r _
  refine ⟨fun h => Or.inr (hclose.mp h.1), fun h => ?_⟩
  have hnull := h.resolve_left hdb
  refine ⟨hclose.mpr hnull, fun _ => ⟨⟨false, []⟩, ?_⟩⟩
  have hok : (w.session.engine.destroyed r w.session.database.collections_).1.close
      (w.session.engine.destroyed r w.session.database.collections_).2.head =
        (.ok .OK, w.session.engine) := by
    rw [hempty]
    simp only [StorageEngine.destroyed, StorageEngine.close, hnull]
  exact congrArg Prod.fst (Engine.run_snd (Database.run_close hok))

/-- Making and dropping a collection is safe where the database is open, and there only. -/
theorem safe_createCollection_iff {name : Bytes} :
    w.Safe codec (.call (.createCollection name), r) ↔ w.session.engine.db_ = .opened := by
  constructor
  · intro h
    by_contra hdb
    have hcreate := (Prog.avoids_bind.mp (Prog.avoids_map.mp h.1)).1
    refine Prog.avoids_perform.mp (Prog.avoids_bind.mp hcreate).1 ⟨?_, hdb⟩
    change name ∉ w.session.engine.columnFamilies_
    rw [w.session.engine.families_eq_empty hdb]
    exact Std.ExtTreeMap.not_mem_empty
  · exact fun hdb => ⟨avoids_of_opened trivial hdb, fun hne => absurd hdb hne⟩

theorem safe_dropCollection_iff {name : Bytes} :
    w.Safe codec (.call (.dropCollection name), r) ↔ w.session.engine.db_ = .opened := by
  constructor
  · intro h
    by_contra hdb
    obtain ⟨db', hret⟩ := h.2 hdb
    have hname : name ∉ w.session.engine.columnFamilies_ := by
      rw [w.session.engine.families_eq_empty hdb]
      exact Std.ExtTreeMap.not_mem_empty
    -- the pointer is null, and is used
    have hraise := @Database.run_dropCollection_of_notMem w.session.database _ r _ hname
    have hrun := Engine.run_snd (Prod.ext hraise rfl)
    change (Engine.run (Prod.snd <$> _) _).1 = _ at hret
    rw [hrun] at hret
    exact absurd hret (by simp [Outcome.map])
  · exact fun hdb => ⟨avoids_of_opened trivial hdb, fun hne => absurd hdb hne⟩

/-- **The handle is safe exactly under the condition.** -/
theorem safe_iff {x : Use × Stream' (Option Bytes)} (hw : w.Guarded)
    (hallowed : x.1.Allowed w.session) :
    w.Safe codec x ↔ x.1.Ready w.session.engine := by
  obtain ⟨use, r⟩ := x
  have hcached {c : Collection} (hc : c ∈ w.session.database.collections_) :
      w.session.engine.db_ = .opened := hw (List.ne_nil_of_mem hc)
  rcases use with call | ⟨c, p⟩
  · cases call with
    | «open» =>
      refine iff_of_true ⟨?_, fun _ => ⟨{ w.session.database with isDbOpen_ := true }, ?_⟩⟩ trivial
      · exact Prog.avoids_map.mpr ⟨fun hbad => hbad.1, fun _ _ _ => trivial⟩
      · exact congrArg Prod.fst (Engine.run_snd Database.run_open)
    | close => exact safe_close_iff hw
    | createCollection name => exact safe_createCollection_iff
    | dropCollection name => exact safe_dropCollection_iff
    | getCollection name =>
      refine iff_of_true ⟨?_, fun _ => ?_⟩ trivial
      · exact Prog.avoids_map.mpr (Engine.avoids_of_onFamily Database.onFamily_getCollection)
      · rcases hfind : w.session.database.find name with _ | c
        · have hrun := Database.run_getCollection (e := w.session.engine) (r := r) hfind
          split_ifs at hrun
          · exact ⟨_, congrArg Prod.fst (Engine.run_snd hrun)⟩
          · exact ⟨_, congrArg Prod.fst (Engine.run_snd hrun)⟩
        · have hrun := Database.run_getCollection_of_cached (e := w.session.engine) (r := r) hfind
          exact ⟨_, congrArg Prod.fst (Engine.run_snd hrun)⟩
    | collection c call =>
      have hdb := hcached hallowed
      exact iff_of_true ⟨avoids_of_opened hallowed hdb, fun hne => absurd hdb hne⟩ trivial
  · have hdb := hcached hallowed.1
    exact iff_of_true ⟨avoids_of_opened hallowed hdb, fun hne => absurd hdb hne⟩ trivial

/-- **The flag and the handle**, over all runs of a database object. The flag tells the truth all
along exactly if it happens to be false at first and every `open` succeeds; and whatever is
done in a state that is reached is safe exactly if the handle is ready for it. -/
theorem handle_iff {isDbOpen_ : Bool} {history : List (Use × Stream' (Option Bytes))} :
    ((constructed isDbOpen_).FlagAgrees ∧
        History.Run (History.Into FlagAgrees (Step codec)) (constructed isDbOpen_) history w ↔
      isDbOpen_ = false ∧
        History.Run (History.Meeting Opens (Step codec)) (constructed isDbOpen_) history w) ∧
    (History.Run (Step codec) (constructed isDbOpen_) history w →
      ∀ x, x.1.Allowed w.session → (w.Safe codec x ↔ x.1.Ready w.session.engine)) := by
  constructor
  · refine and_congr_right fun hstart => ?_
    exact History.Run.into_iff_meeting hstart fun hw h => hw.step_iff h
  · intro h x hallowed
    have hguarded : w.Guarded := by
      refine h.invariant (I := Guarded) (fun hne => absurd rfl hne) ?_
      intro w x w' hw hstep
      exact hw.step hstep
    exact safe_iff hguarded hallowed

/-- A database that has been opened. -/
def justOpened : Watched := ⟨Session.new.after .standard .open, true⟩

theorem handle_justOpened :
    History.Run (Step .standard) (constructed false) [(.call .open, Stream'.const none)]
      justOpened ∧ justOpened.FlagAgrees ∧
    justOpened.Safe .standard (.call (.createCollection letterC.name_), Stream'.const none) := by
  have hstep : (constructed false).Step .standard (.call .open, Stream'.const none) justOpened :=
    ⟨trivial, ⟨_, _, rfl, rfl, Or.inl rfl⟩, by decide +kernel⟩
  have hopens : (constructed false).Opens (.call .open, Stream'.const none) :=
    ⟨rfl, by simp [constructed, StorageEngine.unopened]⟩
  have hrun : History.Run (Step .standard) (constructed false) _ _ := History.Run.nil.snoc hstep
  have hiff := @handle_iff .standard justOpened false [(.call .open, Stream'.const none)]
  obtain ⟨hstart, hinto⟩ := hiff.1.mpr ⟨rfl, History.Run.nil.snoc ⟨hopens, hstep⟩⟩
  have hdb : justOpened.session.engine.db_ = .opened := by decide +kernel
  refine ⟨hrun, hinto.of_into hstart, ?_⟩
  exact (hiff.2 hrun (.call (.createCollection letterC.name_), Stream'.const none) trivial).mpr hdb

/-- **An `open` that fails**: the flag says that the database is open, and creating a collection
uses a handle that was never set. -/
theorem not_handle_of_failed_open : ∃ w, History.Run (Step .standard) (constructed false)
      [(.call .open, Stream'.const (some (Bytes.ofText "IO error")))] w ∧
    ¬w.FlagAgrees ∧
    ¬w.Safe .standard (.call (.createCollection letterC.name_), Stream'.const none) := by
  refine ⟨⟨⟨⟨true, []⟩, .unopened⟩, false⟩, History.Run.nil.snoc ?_, by simp [FlagAgrees], ?_⟩
  · exact ⟨trivial, ⟨_, _, rfl, rfl, Or.inl rfl⟩, by decide +kernel⟩
  · intro h
    exact absurd (safe_createCollection_iff.mp h) (by simp [StorageEngine.unopened])

end Watched

end AnuDB
