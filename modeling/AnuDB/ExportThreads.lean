import AnuDB.Handle
import AnuDB.Lib.Action
import AnuDB.Objects

/-!
# Threads of exports

`exportAllToJsonAsync` assigns a new thread to the member of its collection object that holds the
thread of the last export. A thread that has come to its end is still joinable, and assigning to a
joinable one ends the process. Nothing but `waitForExportOperation` joins it while the object is
there.

So which exports are safe is told by the calls alone, and not by how far the exports have come: one
on an object is safe exactly if every earlier one on it has been waited for
(`AnuDB.Process.export_isSafe_iff`). The destructor of an object waits, so no thread outlives
its object, and no other call ends the process.
-/

namespace AnuDB

open Effect

/-! ### The state -/

/-- `ExportTask`: what a thread exports, and where to. -/
structure ExportTask where
  /-- The name of the collection. -/
  collection_name_ : Bytes
  /-- The path. -/
  output_path_ : Bytes

/-- What `export_thread_` is. -/
inductive Thread where
  /-- No thread: none was assigned, or it has been joined. -/
  | none : Thread
  /-- A thread whose task goes on. -/
  | running (task : ExportTask) : Thread
  /-- A thread whose task has come to its end. -/
  | finished (task : ExportTask) : Thread

/-- `std::thread::joinable`. -/
def Thread.joinable : Thread → Bool
  | .none => false
  | .running _ => true
  | .finished _ => true

/-- **A process**: a database with its objects and their threads, and its engine. -/
structure Process where
  /-- The database. -/
  objects : Objects
  /-- The thread of each object that was ever made, by its identity. -/
  threads : ℕ → Thread
  /-- The engine. -/
  engine : StorageEngine
  /-- What RocksDB will refuse. -/
  refusals : Stream' (Option Bytes)

/-- Code that has threads to deal with. -/
abbrev Threaded (α : Type) : Type := Action Process Exn α

/-- `collections_.clear()`, as `close` has it. -/
def Objects.cleared (o : Objects) : Objects := ⟨false, [], o.created, fun _ h => by cases h⟩

namespace Process

/-- A process with a database object on a new path. -/
def new (refusals : Stream' (Option Bytes)) : Process :=
  ⟨.new false, fun _ => .none, .unopened, refusals⟩

/-- What is there after calls to the engine. -/
def after (s : Process) (w : World) : Process :=
  { s with engine := w.engine, refusals := w.refusals }

/-- The process with another thread for an object. -/
def withThread (s : Process) (p : Object) (thread : Thread) : Process :=
  { s with threads := Function.update s.threads p.identity thread }

end Process

namespace Threaded

/-! ### The methods -/

/-- Calls to the engine, made. -/
def engine {α : Type} (p : Engine α) : Threaded α := fun s =>
  let (outcome, w) := p.run (.refusing s.engine s.refusals)
  (outcome, s.after w)

/-- `Collection::exportAllToJsonAsync`. A thread that is assigned to a joinable one ends the
process. -/
def exportAllToJsonAsync (p : Object) (exportPath : Bytes) : Threaded Status := do
  let task : ExportTask := ⟨p.collection.name_, exportPath⟩
  let s ← Action.get
  if (s.threads p.identity).joinable then Action.raise (.undefined .terminate)
  else
    Action.modify fun s => s.withThread p (.running task)
    return .OK

/-- `Collection::waitForExportOperation`: a task that goes on comes to its end in the meantime. -/
def waitForExportOperation (p : Object) : Threaded Unit := do
  let s ← Action.get
  if (s.threads p.identity).joinable then Action.modify fun s => s.withThread p .none
  else pure ()

/-- `Collection::~Collection`, and then the destructor of the thread: one that is joinable ends
the process. -/
def destroy (p : Object) : Threaded Unit := do
  engine p.collection.destroy
  waitForExportOperation p
  let s ← Action.get
  if (s.threads p.identity).joinable then Action.raise (.undefined .terminate) else pure ()

/-- The object of a name leaves the cache; where it does, it is destroyed. -/
def erase (name : Bytes) : Threaded Unit := do
  let s ← Action.get
  match s.objects.find name with
  | none => pure ()
  | some p => do
    destroy p
    Action.modify fun s => { s with objects := s.objects.without name }

/-- `collections_.clear()`: the objects are destroyed one after the other. -/
def destroyAll : List Object → Threaded Unit
  | [] => pure ()
  | p :: objects => do
    destroy p
    destroyAll objects

/-- `Database::open`. -/
def «open» : Threaded Status := do
  Action.modify fun s => { s with objects := { s.objects with isDbOpen_ := true } }
  engine Engine.open

/-- `Database::close`. -/
def close : Threaded Status := do
  let s ← Action.get
  destroyAll s.objects.collections_
  Action.modify fun s => { s with objects := s.objects.cleared }
  engine Engine.close

/-- `Database::createCollection`. -/
def createCollection (name : Bytes) : Threaded Status := do
  let status ← engine (Engine.createCollection name)
  if status.ok then
    erase name
    Action.modify fun s => { s with objects := s.objects.make name }
    return .OK
  else return status

/-- `Database::getCollection`. -/
def getCollection (name : Bytes) : Threaded (Option Object) := do
  let s ← Action.get
  match s.objects.find name with
  | some p => return some p
  | none =>
    if ← engine (Engine.collectionExists name) then
      Action.modify fun s => { s with objects := s.objects.make name }
      return some (s.objects.next name)
    else return none

/-- `Database::dropCollection`: the pointer `getCollection` returns is used as it is. -/
def dropCollection (name : Bytes) : Threaded Status := do
  erase name
  match ← getCollection name with
  | none => Action.raise (.undefined .nullCollection)
  | some p => do
    let indexes ← engine p.collection.getIndex
    engine (p.collection.deleteIndexes indexes)
    engine (Engine.dropCollection name)

/-- `Database::exportAllToJsonAsync`. -/
def exportCollection (name exportPath : Bytes) : Threaded Status := do
  match ← getCollection name with
  | none => return .notFound (Bytes.ofText "Collection not found: " ++ name)
  | some p => exportAllToJsonAsync p exportPath

end Threaded

/-! ### The calls -/

/-- The calls, and a task that comes to its end. `Database::exportAllToJsonAsync` is two of them
(`AnuDB.Process.run_of_exportCollection`). -/
inductive ExportCall where
  | «open» : ExportCall
  | close : ExportCall
  | createCollection (name : Bytes) : ExportCall
  | dropCollection (name : Bytes) : ExportCall
  | getCollection (name : Bytes) : ExportCall
  /-- `exportAllToJsonAsync` on a collection object. -/
  | exportAllToJsonAsync (p : Object) (exportPath : Bytes) : ExportCall
  /-- `waitForExportOperation` on a collection object. -/
  | waitForExportOperation (p : Object) : ExportCall
  /-- The task of an object's thread comes to its end. -/
  | finish (p : Object) : ExportCall

/-- The call, made. -/
def ExportCall.perform : ExportCall → Threaded Unit
  | .open => do let _ ← Threaded.open
  | .close => do let _ ← Threaded.close
  | .createCollection name => do let _ ← Threaded.createCollection name
  | .dropCollection name => do let _ ← Threaded.dropCollection name
  | .getCollection name => do let _ ← Threaded.getCollection name
  | .exportAllToJsonAsync p exportPath => do let _ ← Threaded.exportAllToJsonAsync p exportPath
  | .waitForExportOperation p => Threaded.waitForExportOperation p
  | .finish p => Action.modify fun s =>
    match s.threads p.identity with
    | .running task => s.withThread p (.finished task)
    | _ => s

/-- What can happen: calls on objects that are there, and the end of a task that goes on. -/
def ExportCall.Allowed (s : Process) : ExportCall → Prop
  | .exportAllToJsonAsync p _ => p ∈ s.objects.collections_
  | .waitForExportOperation p => p ∈ s.objects.collections_
  | .finish p => ∃ task, s.threads p.identity = .running task
  | _ => True

namespace Process

/-- **A step**: a call that comes back, or the end of a task. -/
def Step (s : Process) (call : ExportCall) (s' : Process) : Prop :=
  call.Allowed s ∧ call.perform.run s = (.ret (), s')

/-- **The code ends the process**: a joinable thread is assigned to, or destroyed. -/
def Terminates {α : Type} (s : Process) (x : Threaded α) : Prop :=
  ∃ s', x.run s = (.raise (.undefined .terminate), s')

/-- **An export on the object has not been waited for.** -/
def Outstanding (history : List ExportCall) (p : Object) : Prop :=
  ∃ earlier exportPath later, history = earlier ++ .exportAllToJsonAsync p exportPath :: later ∧
    .waitForExportOperation p ∉ later

/-! ### What the methods do to threads -/

variable {s s' s₀ : Process} {p : Object} {name : Bytes}

theorem eq_none_of_not_joinable {t : Thread} (h : ¬t.joinable = true) : t = .none := by
  cases t with
  | none => rfl
  | _ => exact absurd rfl h

theorem run_engine {α : Type} {x : Engine α} {outcome : Outcome Exn α} {w : World}
    (h : x.run (.refusing s.engine s.refusals) = (outcome, w)) :
    (Threaded.engine x).run s = (outcome, s.after w) := by
  rw [Action.run, Threaded.engine, h]

@[simp] theorem threads_withThread_self {thread : Thread} :
    (s.withThread p thread).threads p.identity = thread := Function.update_self ..

theorem threads_withThread_of_ne {thread : Thread} {i : ℕ} (h : i ≠ p.identity) :
    (s.withThread p thread).threads i = s.threads i := Function.update_of_ne h ..

/-- Waiting leaves no thread, whether there was one or not. -/
theorem run_wait (p : Object) (s : Process) :
    (Threaded.waitForExportOperation p).run s = (.ret (), s.withThread p .none) := by
  rw [Threaded.waitForExportOperation, Action.run_bind, Action.run_get]
  simp only
  split_ifs with hjoinable
  · rfl
  · have hsame : s.withThread p .none = s := by
      rw [withThread, ← eq_none_of_not_joinable hjoinable, Function.update_eq_self]
    rw [hsame, Action.run_pure]

/-- **The destructor waits**, so the thread it destroys is not joinable. -/
theorem run_destroy (p : Object) (s : Process) :
    ∃ w, (Threaded.destroy p).run s = (.ret (), (s.after w).withThread p .none) := by
  obtain ⟨w, hrun⟩ : ∃ w, p.collection.destroy.run (.refusing s.engine s.refusals) = (.ret (), w) :=
    ⟨_, Collection.run_destroy⟩
  refine ⟨w, ?_⟩
  rw [Threaded.destroy, Action.run_bind_of_ret (run_engine hrun),
    Action.run_bind_of_ret (run_wait p _), Action.run_bind_of_ret (Action.run_get _),
    threads_withThread_self]
  rfl

/-- The object of a name is gone, and its thread has been joined. -/
structure Erased (s : Process) (name : Bytes) (s' : Process) : Prop where
  /-- The objects are those of other names. -/
  objects : s'.objects = s.objects.without name
  /-- The thread of the object has been joined, and no other. -/
  threads : s'.threads = match s.objects.find name with
    | none => s.threads
    | some p => Function.update s.threads p.identity .none

theorem run_erase (name : Bytes) (s : Process) :
    ∃ s', (Threaded.erase name).run s = (.ret (), s') ∧ s.Erased name s' := by
  rw [Threaded.erase, Action.run_bind_of_ret (Action.run_get s)]
  rcases hfind : s.objects.find name with _ | p
  · refine ⟨s, rfl, (Objects.without_of_find hfind).symm, ?_⟩
    rw [hfind]
  · obtain ⟨w, hdestroy⟩ := run_destroy p s
    simp only
    rw [Action.run_bind_of_ret hdestroy]
    refine ⟨_, rfl, rfl, ?_⟩
    rw [hfind]
    rfl

/-- Clearing the cache joins the threads of its objects, and no others. -/
theorem run_destroyAll (objects : List Object) (s : Process) :
    ∃ s', (Threaded.destroyAll objects).run s = (.ret (), s') ∧ s'.objects = s.objects ∧
      (∀ p ∈ objects, s'.threads p.identity = .none) ∧
      ∀ i, s'.threads i = .none ∨ s'.threads i = s.threads i := by
  induction objects generalizing s with
  | nil => exact ⟨s, rfl, rfl, fun p hp => absurd hp List.not_mem_nil, fun i => Or.inr rfl⟩
  | cons p objects ih =>
    obtain ⟨w, hdestroy⟩ := run_destroy p s
    obtain ⟨s', hrun, hobjects, hjoined, hthreads⟩ := ih ((s.after w).withThread p .none)
    have hthread (i : ℕ) : s'.threads i = .none ∨ s'.threads i = s.threads i ∧ i ≠ p.identity := by
      rcases hthreads i with h | h
      · exact Or.inl h
      · by_cases hi : i = p.identity
        · rw [h, hi, threads_withThread_self]
          exact Or.inl rfl
        · rw [h, threads_withThread_of_ne hi]
          exact Or.inr ⟨rfl, hi⟩
    refine ⟨s', ?_, hobjects, ?_, fun i => (hthread i).imp_right And.left⟩
    · rw [Threaded.destroyAll, Action.run_bind_of_ret hdestroy]
      exact hrun
    · intro q hq
      rcases List.mem_cons.mp hq with rfl | hq
      · exact (hthread q.identity).resolve_right fun h => h.2 rfl
      · exact hjoined q hq

/-! ### Objects that stay -/

/-- **What holds in every process**: an object is told by its name and by its identity, and only
objects that are there have threads that can be joined. -/
structure Sound (s : Process) : Prop where
  named : ∀ p ∈ s.objects.collections_, ∀ q ∈ s.objects.collections_,
    p.collection.name_ = q.collection.name_ → p = q
  identified : ∀ p ∈ s.objects.collections_, ∀ q ∈ s.objects.collections_,
    p.identity = q.identity → p = q
  joined : ∀ i, (s.threads i).joinable = true → ∃ p ∈ s.objects.collections_, p.identity = i

/-- An object that has not been made has no thread. -/
theorem Sound.eq_none (h : s.Sound) {i : ℕ} (hi : s.objects.created ≤ i) : s.threads i = .none := by
  refine eq_none_of_not_joinable fun hjoinable => ?_
  obtain ⟨p, hp, rfl⟩ := h.joined i hjoinable
  exact absurd (s.objects.lt_created p hp) (Nat.not_lt.mpr hi)

/-- **Objects come and go**: those that are there were there before or have been made since, and
have the threads they had. -/
structure Moves (s s' : Process) : Prop where
  start : s.Sound
  sound : s'.Sound
  created : s.objects.created ≤ s'.objects.created
  alive : ∀ p ∈ s'.objects.collections_,
    p ∈ s.objects.collections_ ∨ s.objects.created ≤ p.identity
  threads : ∀ p ∈ s'.objects.collections_, s'.threads p.identity = s.threads p.identity

namespace Moves

theorem refl (h : s.Sound) : s.Moves s :=
  ⟨h, h, Nat.le_refl _, fun _ hp => Or.inl hp, fun _ _ => rfl⟩

/-- An object leaves, and its thread is joined. -/
theorem erased (h : s₀.Moves s) (he : s.Erased name s') : s₀.Moves s' := by
  obtain ⟨hobjects, hthreads⟩ := he
  have hmem {p : Object} : p ∈ s'.objects.collections_ ↔
      p ∈ s.objects.collections_ ∧ p.collection.name_ ≠ name := by
    rw [hobjects, Objects.without, List.mem_filter, decide_eq_true_iff]
  -- there is an object of the name, whose thread is joined, or there is none
  have hcases : (∀ p ∈ s.objects.collections_, p.collection.name_ ≠ name) ∧
      s'.threads = s.threads ∨ ∃ q ∈ s.objects.collections_, q.collection.name_ = name ∧
        s'.threads = Function.update s.threads q.identity .none := by
    rcases hfind : s.objects.find name with _ | q
    · rw [hfind] at hthreads
      rw [Objects.find, List.find?_eq_none] at hfind
      exact Or.inl ⟨fun p hp => by simpa using hfind p hp, hthreads⟩
    · rw [hfind] at hthreads
      refine Or.inr ⟨q, List.mem_of_find?_eq_some hfind, ?_, hthreads⟩
      rw [Objects.name_of_find hfind]
  refine ⟨h.start, ⟨fun p hp q hq => ?_, fun p hp q hq => ?_, fun i hi => ?_⟩, ?_, fun p hp => ?_,
    fun p hp => ?_⟩
  · exact h.sound.named p (hmem.mp hp).1 q (hmem.mp hq).1
  · exact h.sound.identified p (hmem.mp hp).1 q (hmem.mp hq).1
  · rcases hcases with ⟨hnot, hsame⟩ | ⟨q, hq, hqname, hjoined⟩
    · rw [hsame] at hi
      obtain ⟨p, hp, rfl⟩ := h.sound.joined i hi
      exact ⟨p, hmem.mpr ⟨hp, hnot p hp⟩, rfl⟩
    · have hne : i ≠ q.identity := by
        rintro rfl
        rw [hjoined, Function.update_self] at hi
        cases hi
      rw [hjoined, Function.update_of_ne hne] at hi
      obtain ⟨p, hp, rfl⟩ := h.sound.joined i hi
      refine ⟨p, hmem.mpr ⟨hp, fun hname => hne ?_⟩, rfl⟩
      rw [h.sound.named p hp q hq (hname.trans hqname.symm)]
  · rw [hobjects]
    exact h.created
  · exact h.alive p (hmem.mp hp).1
  · obtain ⟨hp, hname⟩ := hmem.mp hp
    rw [← h.threads p hp]
    rcases hcases with ⟨-, hsame⟩ | ⟨q, hq, hqname, hjoined⟩
    · rw [hsame]
    · have hne : p.identity ≠ q.identity := fun hid =>
        hname (h.sound.identified p hp q hq hid ▸ hqname)
      rw [hjoined, Function.update_of_ne hne]

/-- An object is made where there is none of its name. -/
theorem made (h : s₀.Moves s) (hfind : s.objects.find name = none) :
    s₀.Moves { s with objects := s.objects.make name } := by
  rw [Objects.find, List.find?_eq_none] at hfind
  have hother (p : Object) (hp : p ∈ s.objects.collections_) : p.collection.name_ ≠ name := by
    simpa using hfind p hp
  have hlt (p : Object) (hp : p ∈ s.objects.collections_) : p.identity ≠ s.objects.created :=
    Nat.ne_of_lt (s.objects.lt_created p hp)
  refine ⟨h.start, ⟨?_, ?_, fun i hi => ?_⟩, Nat.le_succ_of_le h.created, ?_, ?_⟩
  · rintro p (_ | ⟨_, hp⟩) q (_ | ⟨_, hq⟩) hname
    · rfl
    · exact absurd hname.symm (hother q hq)
    · exact absurd hname (hother p hp)
    · exact h.sound.named p hp q hq hname
  · rintro p (_ | ⟨_, hp⟩) q (_ | ⟨_, hq⟩) hid
    · rfl
    · exact absurd hid.symm (hlt q hq)
    · exact absurd hid (hlt p hp)
    · exact h.sound.identified p hp q hq hid
  · obtain ⟨p, hp, rfl⟩ := h.sound.joined i hi
    exact ⟨p, List.mem_cons_of_mem _ hp, rfl⟩
  · rintro p (_ | ⟨_, hp⟩)
    · exact Or.inr h.created
    · exact h.alive p hp
  · rintro p (_ | ⟨_, hp⟩)
    · exact (h.sound.eq_none le_rfl).trans (h.start.eq_none h.created).symm
    · exact h.threads p hp

/-- Calls to the engine are not seen. -/
theorem after (h : s₀.Moves s) (w : World) : s₀.Moves (s.after w) :=
  ⟨h.start, ⟨h.sound.named, h.sound.identified, h.sound.joined⟩, h.created, h.alive, h.threads⟩

/-- All objects leave, and their threads are joined. -/
theorem cleared (h : s₀.Moves s) (hobjects : s'.objects = s.objects.cleared)
    (hjoined : ∀ p ∈ s.objects.collections_, s'.threads p.identity = .none)
    (hthreads : ∀ i, s'.threads i = .none ∨ s'.threads i = s.threads i) : s₀.Moves s' := by
  have hnone (p : Object) : p ∉ s'.objects.collections_ := by
    rw [hobjects]
    exact List.not_mem_nil
  refine ⟨h.start, ⟨fun p hp => absurd hp (hnone p), fun p hp => absurd hp (hnone p),
    fun i hi => ?_⟩, ?_, fun p hp => absurd hp (hnone p), fun p hp => absurd hp (hnone p)⟩
  · -- a thread that is left would be of an object that was there
    exfalso
    rcases hthreads i with hi' | hi'
    · rw [hi'] at hi
      cases hi
    · rw [hi'] at hi
      obtain ⟨p, hp, rfl⟩ := h.sound.joined i hi
      rw [← hi', hjoined p hp] at hi
      cases hi
  · rw [hobjects]
    exact h.created

end Moves

/-- **Code that objects come and go by**, and that does not end the process. -/
abbrev Manages {α : Type} (s₀ : Process) (x : Threaded α) : Prop :=
  x.Triple s₀.Moves (fun _ => s₀.Moves) fun exn _ => exn ≠ .undefined .terminate

/-- What is returned does not matter. -/
theorem Manages.dropped {α : Type} {x : Threaded α} (h : s₀.Manages x) :
    s₀.Manages (do let _ ← x : Threaded Unit) :=
  h.bind fun _ => Action.Triple.pure fun _ hs => hs

theorem Manages.not_terminates {α : Type} {x : Threaded α} (h : s.Manages x) (hs : s.Sound) :
    ¬s.Terminates x := by
  rintro ⟨s', hrun⟩
  rcases h s (.refl hs) with ⟨a, s₁, hret, -⟩ | ⟨exn, s₁, hraise, hne⟩
  · cases (Prod.mk.inj (hrun.symm.trans hret)).1
  · exact hne (Outcome.raise.inj (Prod.mk.inj (hrun.symm.trans hraise)).1).symm

theorem manages_engine {α : Type} {x : Engine α} (hraise : ∀ w exn w', x.run w = (.raise exn, w') →
    exn ≠ .undefined .terminate) : s₀.Manages (Threaded.engine x) := by
  intro s hs
  rcases hrun : x.run (.refusing s.engine s.refusals) with ⟨a | exn | _, w⟩
  · exact Or.inl ⟨a, _, run_engine hrun, hs.after w⟩
  · exact Or.inr ⟨exn, _, run_engine hrun, hraise _ exn w hrun⟩
  · exact absurd (congrArg Prod.fst hrun) (Engine.run_refusing_ne_stopped x s.engine s.refusals)

theorem manages_engine_of_raises {α : Type} {x : Engine α} (h : x.Raises fun _ => False) :
    s₀.Manages (Threaded.engine x) :=
  manages_engine fun _ _ _ hrun => (h.of_run hrun).elim

theorem triple_erase (name : Bytes) : (Threaded.erase name).Triple s₀.Moves
    (fun _ s => s₀.Moves s ∧ s.objects.find name = none)
    fun exn _ => exn ≠ .undefined .terminate := by
  intro s hs
  obtain ⟨s', hrun, herased⟩ := run_erase name s
  refine Or.inl ⟨(), s', hrun, hs.erased herased, ?_⟩
  rw [herased.objects, Objects.find_without, if_pos rfl]

/-- What `getCollection` does: the object that is held, another one, or none. -/
theorem run_getCollection (name : Bytes) (s : Process) :
    (∃ p, s.objects.find name = some p ∧ (Threaded.getCollection name).run s = (.ret (some p), s)) ∨
    s.objects.find name = none ∧ ∃ w, (Threaded.getCollection name).run s =
        (.ret (some (s.objects.next name)), { s.after w with objects := s.objects.make name }) ∨
      (Threaded.getCollection name).run s = (.ret none, s.after w) := by
  rw [Threaded.getCollection, Action.run_bind_of_ret (Action.run_get s)]
  rcases hfind : s.objects.find name with _ | p
  · refine Or.inr ⟨rfl, .refusing s.engine s.refusals.tail, ?_⟩
    have hrun : (Engine.collectionExists name).run (.refusing s.engine s.refusals) =
        (.ret (s.engine.collectionExists name), .refusing s.engine s.refusals.tail) := by
      rw [Engine.collectionExists, ← bind_pure (Prog.perform _), Engine.run_call_bind_refusing]
      rfl
    simp only
    rw [Action.run_bind_of_ret (run_engine hrun)]
    split_ifs
    · exact Or.inl rfl
    · exact Or.inr rfl
  · exact Or.inl ⟨p, rfl, rfl⟩

theorem manages_getCollection (name : Bytes) : s₀.Manages (Threaded.getCollection name) := by
  intro s hs
  rcases run_getCollection name s with ⟨p, -, hrun⟩ | ⟨hfind, w, hrun | hrun⟩
  · exact Or.inl ⟨_, _, hrun, hs⟩
  · exact Or.inl ⟨_, _, hrun, (hs.after w).made hfind⟩
  · exact Or.inl ⟨_, _, hrun, hs.after w⟩

theorem manages_createCollection (name : Bytes) : s₀.Manages (Threaded.createCollection name) := by
  refine Action.Triple.bind (manages_engine fun w exn w' hrun => ?_) fun status => ?_
  · -- only an engine that is not open raises
    rintro rfl
    rw [Engine.createCollection, Engine.run_call_bind] at hrun
    rcases hfault : w.fates.head.fault? with _ | fault
    · simp [hfault] at hrun
    · rcases w.engine.createCollection_cases fault name with ⟨hc, -⟩ | ⟨status, hc, -⟩ | ⟨hc, -⟩ <;>
        simp [hfault, StorageEngine.exec, hc, Prog.ofExcept] at hrun
  · split_ifs
    · refine Action.Triple.bind (triple_erase name) fun _ => ?_
      refine Action.Triple.bind (Action.Triple.modify (Q := fun _ => s₀.Moves) ?_) fun _ =>
        Action.Triple.pure fun s hs => hs
      exact fun s hs => hs.1.made hs.2
    · exact Action.Triple.pure fun s hs => hs

theorem raises_deleteIndexes {E : Exn → Prop} (c : Collection) (indexes : List Bytes) :
    (c.deleteIndexes indexes).Raises E := by
  induction indexes with
  | nil => trivial
  | cons index indexes ih => exact (Prog.raises_perform _).bind fun _ => ih

theorem manages_dropCollection (name : Bytes) : s₀.Manages (Threaded.dropCollection name) := by
  refine Action.Triple.bind ((triple_erase name).mono (fun _ h => h) (fun _ _ h => h.1)
    fun _ _ h => h) fun _ => Action.Triple.bind (manages_getCollection name) fun found => ?_
  cases found with
  | none => exact Action.Triple.raise fun s hs => by simp
  | some p =>
    refine Action.Triple.bind (manages_engine_of_raises (Prog.raises_perform _)) fun indexes => ?_
    have hindexes := raises_deleteIndexes (E := fun _ => False) p.collection indexes
    refine Action.Triple.bind (manages_engine_of_raises hindexes) fun _ => ?_
    exact manages_engine_of_raises (Prog.raises_perform _)

theorem manages_open : s₀.Manages Threaded.open := by
  refine Action.Triple.bind (Action.Triple.modify (Q := fun _ => s₀.Moves) fun s hs => ?_) fun _ =>
    manages_engine_of_raises (Prog.raises_perform _)
  exact ⟨hs.start, ⟨hs.sound.named, hs.sound.identified, hs.sound.joined⟩, hs.created, hs.alive,
    hs.threads⟩

theorem manages_close : s₀.Manages Threaded.close := by
  refine Action.Triple.get_bind fun s hs => ?_
  have hdestroyed : (Threaded.destroyAll s.objects.collections_).Triple (· = s)
      (fun _ s' => s'.objects = s.objects ∧
        (∀ p ∈ s.objects.collections_, s'.threads p.identity = .none) ∧
        ∀ i, s'.threads i = .none ∨ s'.threads i = s.threads i)
      fun exn _ => exn ≠ .undefined .terminate := by
    obtain ⟨s', hrun, hcleared⟩ := run_destroyAll s.objects.collections_ s
    intro s₁ hs₁
    exact Or.inl ⟨(), s', hs₁ ▸ hrun, hcleared⟩
  refine hdestroyed.bind fun _ => Action.Triple.bind
    (Action.Triple.modify (Q := fun _ => s₀.Moves) ?_) fun _ => manages_engine ?_
  · rintro s' ⟨hobjects, hjoined, hthreads⟩
    exact hs.cleared (congrArg Objects.cleared hobjects) hjoined hthreads
  · rintro w exn w' hrun rfl
    rw [Engine.close, Engine.run_call_bind] at hrun
    rcases hfault : w.fates.head.fault? with _ | fault
    · simp [hfault] at hrun
    · rcases hc : w.engine.close fault with ⟨exn | status, e'⟩
      · obtain rfl := StorageEngine.close_eq_error hc
        simp [hfault, StorageEngine.exec, hc, Prog.ofExcept] at hrun
      · simp [hfault, StorageEngine.exec, hc, Prog.ofExcept] at hrun

/-! ### Runs -/

theorem outstanding_append_singleton {history : List ExportCall} {call : ExportCall} :
    Outstanding (history ++ [call]) p ↔ (∃ exportPath, call = .exportAllToJsonAsync p exportPath) ∨
      call ≠ .waitForExportOperation p ∧ Outstanding history p := by
  constructor
  · rintro ⟨earlier, exportPath, later, heq, hlater⟩
    rcases List.eq_nil_or_concat later with rfl | ⟨rest, last, rfl⟩
    · obtain ⟨-, hlast⟩ := List.append_inj' heq rfl
      exact Or.inl ⟨exportPath, List.singleton_inj.mp hlast⟩
    · rw [List.concat_eq_append] at heq hlater
      rw [← List.cons_append, ← List.append_assoc] at heq
      obtain ⟨rfl, hlast⟩ := List.append_inj' heq rfl
      obtain rfl := List.singleton_inj.mp hlast
      rw [List.mem_append, not_or, List.mem_singleton] at hlater
      exact Or.inr ⟨Ne.symm hlater.2, earlier, exportPath, rest, rfl, hlater.1⟩
  · rintro (⟨exportPath, rfl⟩ | ⟨hne, earlier, exportPath, later, rfl, hlater⟩)
    · exact ⟨history, exportPath, [], rfl, List.not_mem_nil⟩
    · refine ⟨earlier, exportPath, later ++ [call], by rw [List.append_assoc]; rfl, ?_⟩
      rw [List.mem_append, not_or, List.mem_singleton]
      exact ⟨hlater, Ne.symm hne⟩

/-- **Which threads are joinable is told by the calls**: those of the objects with an export that
has not been waited for. -/
structure Tracks (history : List ExportCall) (s : Process) : Prop where
  sound : s.Sound
  joinable_iff : ∀ p ∈ s.objects.collections_,
    (s.threads p.identity).joinable = true ↔ Outstanding history p
  made : ∀ p exportPath, .exportAllToJsonAsync p exportPath ∈ history →
    p.identity < s.objects.created

/-- Where objects come and go, what is outstanding stays. -/
theorem Tracks.moves {history : List ExportCall} {call : ExportCall} (h : Tracks history s)
    (hmoves : s.Moves s') (hexport : ∀ p exportPath, call ≠ .exportAllToJsonAsync p exportPath)
    (hwait : ∀ p, call ≠ .waitForExportOperation p) : Tracks (history ++ [call]) s' := by
  have hsame (p : Object) : Outstanding (history ++ [call]) p ↔ Outstanding history p := by
    rw [outstanding_append_singleton, and_iff_right (hwait p)]
    exact or_iff_right fun hc => hc.elim (hexport p)
  refine ⟨hmoves.sound, fun p hp => ?_, fun p exportPath hmem => ?_⟩
  · rw [hmoves.threads p hp, hsame]
    rcases hmoves.alive p hp with hbefore | hnew
    · exact h.joinable_iff p hbefore
    · -- an object that has been made since has no thread, and no export is on it
      rw [h.sound.eq_none hnew]
      refine iff_of_false Bool.false_ne_true ?_
      rintro ⟨earlier, exportPath, later, rfl, -⟩
      have hlt := h.made p exportPath (List.mem_append_right _ List.mem_cons_self)
      exact absurd hlt (Nat.not_lt.mpr hnew)
  · rcases List.mem_append.mp hmem with hbefore | hlast
    · exact Nat.lt_of_lt_of_le (h.made p exportPath hbefore) hmoves.created
    · exact absurd (List.mem_singleton.mp hlast).symm (hexport p exportPath)

/-- What a thread becomes is seen at its object. -/
theorem Tracks.withThread {history : List ExportCall} {call : ExportCall} {thread : Thread}
    (h : Tracks history s) (hp : thread.joinable = true → ∃ q ∈ s.objects.collections_,
      q.identity = p.identity)
    (hself : ∀ q ∈ s.objects.collections_, q.identity = p.identity →
      (thread.joinable = true ↔ Outstanding (history ++ [call]) q))
    (hother : ∀ q, q.identity ≠ p.identity →
      (Outstanding (history ++ [call]) q ↔ Outstanding history q))
    (hmade : ∀ q exportPath, call = .exportAllToJsonAsync q exportPath →
      q.identity < s.objects.created) : Tracks (history ++ [call]) (s.withThread p thread) := by
  refine ⟨⟨h.sound.named, h.sound.identified, fun i hi => ?_⟩, fun q hq => ?_,
    fun q exportPath hmem => ?_⟩
  · by_cases heq : i = p.identity
    · subst heq
      rw [threads_withThread_self] at hi
      exact hp hi
    · rw [threads_withThread_of_ne heq] at hi
      exact h.sound.joined i hi
  · by_cases heq : q.identity = p.identity
    · rw [heq, threads_withThread_self]
      exact hself q hq heq
    · rw [threads_withThread_of_ne heq, hother q heq]
      exact h.joinable_iff q hq
  · rcases List.mem_append.mp hmem with hbefore | hlast
    · exact h.made q exportPath hbefore
    · exact hmade q exportPath (List.mem_singleton.mp hlast).symm

/-- An export that comes back has been assigned to no joinable thread. -/
theorem run_export (p : Object) (exportPath : Bytes) (s : Process) :
    (Threaded.exportAllToJsonAsync p exportPath).run s =
      if (s.threads p.identity).joinable then (.raise (.undefined .terminate), s)
      else (.ret .OK, s.withThread p (.running ⟨p.collection.name_, exportPath⟩)) := by
  rw [Threaded.exportAllToJsonAsync, Action.run_bind_of_ret (Action.run_get s)]
  split_ifs
  · rfl
  · rfl

theorem run_perform_export (p : Object) (exportPath : Bytes) (s : Process) :
    (ExportCall.exportAllToJsonAsync p exportPath).perform.run s =
      if (s.threads p.identity).joinable then (.raise (.undefined .terminate), s)
      else (.ret (), s.withThread p (.running ⟨p.collection.name_, exportPath⟩)) := by
  rw [ExportCall.perform, Action.run_bind, run_export]
  split_ifs
  · rfl
  · rfl

theorem run_perform_finish {task : ExportTask} (h : s.threads p.identity = .running task) :
    (ExportCall.finish p).perform.run s = (.ret (), s.withThread p (.finished task)) := by
  refine Prod.ext rfl ?_
  change (match s.threads p.identity with
    | .running task => s.withThread p (.finished task)
    | _ => s) = s.withThread p (.finished task)
  rw [h]

/-- **Every step keeps count.** -/
theorem Tracks.step {history : List ExportCall} {call : ExportCall} (h : Tracks history s)
    (hstep : s.Step call s') : Tracks (history ++ [call]) s' := by
  obtain ⟨hallowed, hrun⟩ := hstep
  cases call with
  | «open» => exact h.moves (manages_open.dropped.of_run (.refl h.sound) hrun) (by simp) (by simp)
  | close => exact h.moves (manages_close.dropped.of_run (.refl h.sound) hrun) (by simp) (by simp)
  | createCollection name =>
    have hmanages : s.Manages (Threaded.createCollection name) := manages_createCollection name
    exact h.moves (hmanages.dropped.of_run (.refl h.sound) hrun) (by simp) (by simp)
  | dropCollection name =>
    have hmanages : s.Manages (Threaded.dropCollection name) := manages_dropCollection name
    exact h.moves (hmanages.dropped.of_run (.refl h.sound) hrun) (by simp) (by simp)
  | getCollection name =>
    have hmanages : s.Manages (Threaded.getCollection name) := manages_getCollection name
    exact h.moves (hmanages.dropped.of_run (.refl h.sound) hrun) (by simp) (by simp)
  | exportAllToJsonAsync p exportPath =>
    rw [run_perform_export] at hrun
    split_ifs at hrun
    · cases (Prod.mk.inj hrun).1
    · obtain ⟨-, rfl⟩ := Prod.mk.inj hrun
      refine h.withThread (fun _ => ⟨p, hallowed, rfl⟩) (fun q hq hid => ?_) (fun q hid => ?_) ?_
      · obtain rfl := h.sound.identified q hq p hallowed hid
        exact iff_of_true rfl (outstanding_append_singleton.mpr (Or.inl ⟨exportPath, rfl⟩))
      · rw [outstanding_append_singleton, and_iff_right (by simp)]
        refine or_iff_right ?_
        rintro ⟨path, hc⟩
        exact hid (congrArg Object.identity (ExportCall.exportAllToJsonAsync.inj hc).1.symm)
      · rintro q path hc
        obtain rfl := (ExportCall.exportAllToJsonAsync.inj hc).1
        exact s.objects.lt_created p hallowed
  | waitForExportOperation p =>
    obtain ⟨-, rfl⟩ := Prod.mk.inj ((run_wait p s).symm.trans hrun)
    refine h.withThread (fun hc => absurd hc Bool.false_ne_true) (fun q hq hid => ?_)
      (fun q hid => ?_) (by simp)
    · obtain rfl := h.sound.identified q hq p hallowed hid
      refine iff_of_false Bool.false_ne_true ?_
      rw [outstanding_append_singleton]
      simp
    · have hne : ExportCall.waitForExportOperation p ≠ .waitForExportOperation q := fun hc =>
        hid (congrArg Object.identity (ExportCall.waitForExportOperation.inj hc).symm)
      rw [outstanding_append_singleton, and_iff_right hne]
      exact or_iff_right (by simp)
  | finish p =>
    obtain ⟨task, htask⟩ := hallowed
    have hsame (q : Object) : Outstanding (history ++ [.finish p]) q ↔ Outstanding history q := by
      rw [outstanding_append_singleton, and_iff_right (by simp)]
      exact or_iff_right (by simp)
    have hjoinable : (s.threads p.identity).joinable = true := by rw [htask]; rfl
    obtain ⟨-, rfl⟩ := Prod.mk.inj ((run_perform_finish htask).symm.trans hrun)
    refine h.withThread (fun _ => h.sound.joined _ hjoinable) (fun q hq hid => ?_)
      (fun q _ => hsame q) (by simp)
    -- a task that has come to its end leaves a thread as joinable as it was
    rw [hsame q, ← h.joinable_iff q hq, hid, hjoinable]
    exact iff_of_true rfl rfl

theorem tracks_new (refusals : Stream' (Option Bytes)) : Tracks [] (.new refusals) := by
  have hnone (p : Object) : p ∉ (Process.new refusals).objects.collections_ := List.not_mem_nil
  refine ⟨⟨fun p hp => absurd hp (hnone p), fun p hp => absurd hp (hnone p), fun i hi => ?_⟩,
    fun p hp => absurd hp (hnone p), fun p exportPath hmem => absurd hmem List.not_mem_nil⟩
  exact absurd hi Bool.false_ne_true

theorem tracks_of_run {refusals : Stream' (Option Bytes)} {history : List ExportCall}
    (hrun : History.Run Step (.new refusals) history s) : Tracks history s := by
  induction hrun with
  | nil => exact tracks_new refusals
  | snoc _ hstep ih => exact ih.step hstep

/-! ### Which exports are safe -/

/-- **The code is safe in a state**: it does not end the process, by a thread that is assigned to a
joinable one or by the destructor of one; and the threads of the objects that are gone have been
joined. -/
structure IsSafe {α : Type} (s : Process) (x : Threaded α) : Prop where
  goesOn : ¬s.Terminates x
  joined : ∀ i, (∀ p ∈ s.objects.collections_, p.identity ≠ i) → (s.threads i).joinable = false

/-- Where objects are sound, it is enough that the process goes on. -/
theorem Tracks.isSafe_iff {α : Type} {history : List ExportCall} {x : Threaded α}
    (h : Tracks history s) : s.IsSafe x ↔ ¬s.Terminates x := by
  refine ⟨IsSafe.goesOn, fun hx => ⟨hx, fun i hi => ?_⟩⟩
  by_contra hjoinable
  obtain ⟨p, hp, hid⟩ := h.sound.joined i (by simpa using hjoinable)
  exact hi p hp hid

theorem terminates_bind_iff {α β : Type} {x : Threaded α} {f : α → Threaded β} {a : α}
    (h : x.run s = (.ret a, s')) : s.Terminates (x >>= f) ↔ s'.Terminates (f a) := by
  rw [Terminates, Terminates, Action.run_bind_of_ret h]

theorem not_terminates_of_ret {α : Type} {x : Threaded α} {a : α} (h : x.run s = (.ret a, s')) :
    ¬s.Terminates x := by
  rintro ⟨s₁, hrun⟩
  cases (Prod.mk.inj (h.symm.trans hrun)).1

theorem terminates_export_iff {exportPath : Bytes} :
    s.Terminates (Threaded.exportAllToJsonAsync p exportPath) ↔
      (s.threads p.identity).joinable = true := by
  have hrun := run_export p exportPath s
  split_ifs at hrun with hjoinable
  · exact iff_of_true ⟨s, hrun⟩ hjoinable
  · exact iff_of_false (not_terminates_of_ret hrun) hjoinable

/-- What a call returns does not matter. -/
theorem terminates_dropped_iff {α : Type} {x : Threaded α} :
    s.Terminates (do let _ ← x : Threaded Unit) ↔ s.Terminates x := by
  rw [Terminates, Terminates, Action.run_bind]
  rcases x.run s with ⟨a | exn | _, s₁⟩
  · exact iff_of_false (by simp) (by simp)
  · simp
  · exact iff_of_false (by simp) (by simp)

/-- **Only an export ends the process**, and only one on an object with an export that has not
been waited for. -/
theorem Tracks.terminates_iff {history : List ExportCall} {call : ExportCall}
    (h : Tracks history s) (hallowed : call.Allowed s) : s.Terminates call.perform ↔
      ∃ p exportPath, call = .exportAllToJsonAsync p exportPath ∧ Outstanding history p := by
  have hmanaged {call : ExportCall} (hx : s.Manages call.perform)
      (hexport : ∀ p exportPath, call ≠ .exportAllToJsonAsync p exportPath) :
      s.Terminates call.perform ↔
        ∃ p exportPath, call = .exportAllToJsonAsync p exportPath ∧ Outstanding history p :=
    iff_of_false (hx.not_terminates h.sound) fun ⟨p, exportPath, hc, _⟩ => hexport p exportPath hc
  cases call with
  | «open» => exact hmanaged manages_open.dropped (by simp)
  | close => exact hmanaged manages_close.dropped (by simp)
  | createCollection name => exact hmanaged (manages_createCollection name).dropped (by simp)
  | dropCollection name => exact hmanaged (manages_dropCollection name).dropped (by simp)
  | getCollection name => exact hmanaged (manages_getCollection name).dropped (by simp)
  | exportAllToJsonAsync p exportPath =>
    rw [ExportCall.perform, terminates_dropped_iff, terminates_export_iff,
      h.joinable_iff p hallowed]
    constructor
    · intro hout
      exact ⟨p, exportPath, rfl, hout⟩
    · rintro ⟨q, path, hc, hout⟩
      obtain ⟨rfl, rfl⟩ := ExportCall.exportAllToJsonAsync.inj hc
      exact hout
  | waitForExportOperation p =>
    exact iff_of_false (not_terminates_of_ret (run_wait p s)) (by simp)
  | finish p =>
    obtain ⟨task, htask⟩ := hallowed
    exact iff_of_false (not_terminates_of_ret (run_perform_finish htask)) (by simp)

/-- An export by name is the calls it consists of. -/
theorem run_of_exportCollection {exportPath : Bytes} {status : Status}
    (h : (Threaded.exportCollection name exportPath).run s = (.ret status, s')) :
    History.Run Step s [.getCollection name] s' ∨
      ∃ p, History.Run Step s [.getCollection name, .exportAllToJsonAsync p exportPath] s' := by
  have hget {found : Option Object} {s₁ : Process}
      (hrun : (Threaded.getCollection name).run s = (.ret found, s₁)) :
      s.Step (.getCollection name) s₁ := by
    refine ⟨trivial, ?_⟩
    rw [ExportCall.perform, Action.run_bind_of_ret hrun, Action.run_pure]
  -- where an object is found, it is there, and the export is on it
  have hfound {p : Object} {s₁ : Process} (hp : p ∈ s₁.objects.collections_)
      (hrun : (Threaded.getCollection name).run s = (.ret (some p), s₁)) :
      ∃ p, History.Run Step s [.getCollection name, .exportAllToJsonAsync p exportPath] s' := by
    rw [Threaded.exportCollection, Action.run_bind_of_ret hrun] at h
    refine ⟨p, (History.Run.nil.snoc (hget hrun)).snoc ⟨hp, ?_⟩⟩
    rw [ExportCall.perform, Action.run_bind_of_ret h, Action.run_pure]
  rcases run_getCollection name s with ⟨p, hfind, hrun⟩ | ⟨-, w, hrun | hrun⟩
  · exact Or.inr (hfound (List.mem_of_find?_eq_some hfind) hrun)
  · exact Or.inr (hfound List.mem_cons_self hrun)
  · refine Or.inl (History.Run.nil.snoc ?_)
    rw [Threaded.exportCollection, Action.run_bind_of_ret hrun] at h
    obtain ⟨-, rfl⟩ := Prod.mk.inj h
    exact hget hrun

theorem Tracks.terminates_exportCollection_iff {history : List ExportCall} {exportPath : Bytes}
    (h : Tracks history s) : s.Terminates (Threaded.exportCollection name exportPath) ↔
      ∃ p, s.objects.find name = some p ∧ Outstanding history p := by
  rw [Threaded.exportCollection]
  rcases run_getCollection name s with ⟨p, hfind, hrun⟩ | ⟨hfind, w, hrun | hrun⟩
  · rw [terminates_bind_iff hrun, hfind]
    simp only [Option.some.injEq, exists_eq_left']
    rw [terminates_export_iff, h.joinable_iff p (List.mem_of_find?_eq_some hfind)]
  · -- an object that has just been made has no thread
    have hnone : s.threads (s.objects.next name).identity = .none := h.sound.eq_none le_rfl
    rw [terminates_bind_iff hrun, hfind]
    refine iff_of_false ?_ (by simp)
    simp only [terminates_export_iff]
    change ¬(s.threads (s.objects.next name).identity).joinable = true
    rw [hnone]
    exact Bool.false_ne_true
  · rw [terminates_bind_iff hrun, hfind]
    exact iff_of_false (not_terminates_of_ret rfl) (by simp)

/-- **Which exports are safe**, after any calls and however far the exports have come: the process
goes on exactly if the call is no export on an object with an export that has not been waited
for. -/
theorem export_isSafe_iff {refusals : Stream' (Option Bytes)} {history : List ExportCall}
    (hrun : History.Run Step (.new refusals) history s) :
    (∀ call : ExportCall, call.Allowed s → (s.IsSafe call.perform ↔
      ∀ p exportPath, call = .exportAllToJsonAsync p exportPath → ¬Outstanding history p)) ∧
    ∀ name exportPath, s.IsSafe (Threaded.exportCollection name exportPath) ↔
      ∀ p, s.objects.find name = some p → ¬Outstanding history p := by
  have h := tracks_of_run hrun
  refine ⟨fun call hallowed => ?_, fun name exportPath => ?_⟩
  · rw [h.isSafe_iff, h.terminates_iff hallowed]
    exact ⟨fun hno p exportPath hc hout => hno ⟨p, exportPath, hc, hout⟩,
      fun hno ⟨p, exportPath, hc, hout⟩ => hno p exportPath hc hout⟩
  · rw [h.isSafe_iff, h.terminates_exportCollection_iff]
    exact ⟨fun hno p hp hout => hno ⟨p, hp, hout⟩, fun hno ⟨p, hp, hout⟩ => hno p hp hout⟩

/-! ### One collection, exported twice -/

section Twice

theorem step_of_ret {call : ExportCall} (hallowed : call.Allowed s)
    (h : (call.perform.run s).1 = .ret ()) : s.Step call (call.perform.run s).2 :=
  ⟨hallowed, Prod.ext h rfl⟩

/-- The object of `c`, the first that is made. -/
def firstObject : Object := ⟨⟨Bytes.ofText "c"⟩, 0⟩

/-- An export of `c`. -/
def exportFirst : ExportCall := .exportAllToJsonAsync firstObject (Bytes.ofText "out")

/-- A process that has opened its database. -/
def opened : Process := (ExportCall.open.perform.run (new (Stream'.const none))).2

/-- The process, with the collection `c`. -/
def withFirst : Process := ((ExportCall.createCollection (Bytes.ofText "c")).perform.run opened).2

theorem run_withFirst : History.Run Step (new (Stream'.const none))
    [.open, .createCollection (Bytes.ofText "c")] withFirst := by
  have hopen : (new (Stream'.const none)).Step .open opened :=
    step_of_ret trivial (by decide +kernel)
  have hcreate : opened.Step (.createCollection (Bytes.ofText "c")) withFirst :=
    step_of_ret trivial (by decide +kernel)
  exact (History.Run.nil.snoc hopen).snoc hcreate

theorem mem_withFirst : firstObject ∈ withFirst.objects.collections_ := by decide +kernel

/-- The first export of `c` goes on. -/
def exporting : Process :=
  withFirst.withThread firstObject (.running ⟨Bytes.ofText "c", Bytes.ofText "out"⟩)

theorem run_exporting : History.Run Step (new (Stream'.const none))
    [.open, .createCollection (Bytes.ofText "c"), exportFirst] exporting := by
  have hfree : ¬(withFirst.threads firstObject.identity).joinable = true := by decide +kernel
  exact run_withFirst.snoc ⟨mem_withFirst, (run_perform_export ..).trans (if_neg hfree)⟩

/-- After a wait, the collection can be exported again. -/
theorem isSafe_export_waited :
    (exporting.withThread firstObject .none).IsSafe exportFirst.perform := by
  have hrun : History.Run Step (new (Stream'.const none))
      ([.open, .createCollection (Bytes.ofText "c"), exportFirst] ++
        [.waitForExportOperation firstObject]) (exporting.withThread firstObject .none) :=
    run_exporting.snoc ⟨mem_withFirst, run_wait firstObject exporting⟩
  refine ((export_isSafe_iff hrun).1 exportFirst mem_withFirst).mpr ?_
  rintro p exportPath hc hout
  obtain ⟨rfl, rfl⟩ := ExportCall.exportAllToJsonAsync.inj hc
  obtain ⟨path, hwait⟩ | ⟨hne, -⟩ := outstanding_append_singleton.mp hout
  · cases hwait
  · exact hne rfl

/-- The first export of `c` has come to its end. -/
def exported : Process :=
  exporting.withThread firstObject (.finished ⟨Bytes.ofText "c", Bytes.ofText "out"⟩)

/-- **The second export ends the process**, though the first has come to its end. -/
theorem not_isSafe_export_again : History.Run Step (new (Stream'.const none))
    [.open, .createCollection (Bytes.ofText "c"), exportFirst, .finish firstObject] exported ∧
    exportFirst.Allowed exported ∧ ¬exported.IsSafe exportFirst.perform := by
  have hrunning : exporting.threads firstObject.identity =
      .running ⟨Bytes.ofText "c", Bytes.ofText "out"⟩ := threads_withThread_self
  refine ⟨run_exporting.snoc ⟨⟨_, hrunning⟩, run_perform_finish hrunning⟩,
    mem_withFirst, fun h => ?_⟩
  -- the thread has nothing left to do, and nobody has joined it
  refine h.goesOn (terminates_dropped_iff.mpr (terminates_export_iff.mpr ?_))
  rw [exported, threads_withThread_self]
  rfl

end Twice

end Process

end AnuDB
