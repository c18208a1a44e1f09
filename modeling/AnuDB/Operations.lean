import AnuDB.Frame

/-!
# Operations, and runs of them

The operations of one session on the collections of a database: a collection is created,
a document call or an index call is made on one. For each of them one lemma says what it
can have done where it reports OK (`AnuDB.Operation.document_okStep` and its three
siblings); the invariants of runs are proved from these alone.

`AnuDB.Reachable` is closed under operations with any outcome, and `AnuDB.OkReachable`
under those that report OK and meet a condition on the state they are made in. A run
whose calls all go through can be computed (`AnuDB.Operation.afterAll`).
-/

namespace AnuDB

open Effect

/-- An operation on the collections of a database. -/
inductive Operation where
  /-- `Database::createCollection`, as far as the engine goes. -/
  | createCollection (name : Bytes) : Operation
  /-- A document call on a collection. -/
  | document (c : Collection) (call : DocumentCall) : Operation
  /-- `createIndex` on a collection. -/
  | createIndex (c : Collection) (index : Bytes) : Operation
  /-- `deleteIndex` on a collection. -/
  | deleteIndex (c : Collection) (index : Bytes) : Operation

/-- The operation, made. -/
def Operation.perform (codec : Codec) : Operation → Engine Status
  | .createCollection name => Engine.createCollection name
  | .document c call => call.perform codec c
  | .createIndex c index => c.createIndex codec none index
  | .deleteIndex c index => c.deleteIndex index

/-- The states a new database comes to by operations of any outcome. -/
inductive Reachable (codec : Codec) : StorageEngine → Prop
  | fresh : Reachable codec .fresh
  | step {e : StorageEngine} (h : Reachable codec e) (op : Operation) (fates : Stream' Fate) :
      Reachable codec ((op.perform codec).run ⟨e, fates⟩).2.engine

/-- The operation reports OK, and leaves the engine. -/
def Operation.OkStep (codec : Codec) (op : Operation) (e e' : StorageEngine) : Prop :=
  ∃ fates status w', (op.perform codec).run ⟨e, fates⟩ = (.ret status, w') ∧
    status.ok = true ∧ w'.engine = e'

/-- **The states a new database comes to by operations that all report OK** and all meet
the condition. -/
inductive OkReachable (codec : Codec) (condition : StorageEngine → Operation → Prop) :
    StorageEngine → Prop
  | fresh : OkReachable codec condition .fresh
  | step {e e' : StorageEngine} (h : OkReachable codec condition e) (op : Operation)
      (hcondition : condition e op) (hstep : op.OkStep codec e e') :
      OkReachable codec condition e'

/-- **What holds at first and is kept by every step holds in every state that is
reached.** -/
theorem OkReachable.invariant {codec : Codec} {condition : StorageEngine → Operation → Prop}
    {I : StorageEngine → Prop} (hfresh : I .fresh)
    (hstep : ∀ {e e' op}, I e → condition e op → op.OkStep codec e e' → I e')
    {e : StorageEngine} (h : OkReachable codec condition e) : I e := by
  induction h with
  | fresh => exact hfresh
  | step h op hcondition hok ih => exact hstep ih hcondition hok

/-! ### Runs whose calls all go through -/

/-- The collection `c`, which the runs that are computed are on. -/
def letterC : Collection := ⟨Bytes.ofText "c"⟩

/-- A document with the id `a` and a number in the field `f`. -/
def numbered (n : ℤ) : Document := ⟨Bytes.ofText "a", .object [(Bytes.ofText "f", .integer n)]⟩

namespace Operation

/-- The engine after the operation, where every call to RocksDB goes through. -/
def after (codec : Codec) (e : StorageEngine) (op : Operation) : StorageEngine :=
  ((op.perform codec).run (World.calm e)).2.engine

/-- Whether the operation reports OK, where every call to RocksDB goes through. -/
def accepted (codec : Codec) (e : StorageEngine) (op : Operation) : Bool :=
  match ((op.perform codec).run (World.calm e)).1 with
  | .ret status => status.ok
  | _ => false

/-- The engine after the operations, one after the other. -/
def afterAll (codec : Codec) (e : StorageEngine) (ops : List Operation) : StorageEngine :=
  ops.foldl (after codec) e

/-- Whether the operations all report OK, one after the other. -/
def acceptedAll (codec : Codec) : StorageEngine → List Operation → Bool
  | _, [] => true
  | e, op :: ops => op.accepted codec e && acceptedAll codec (op.after codec e) ops

theorem okStep_after {codec : Codec} {e : StorageEngine} {op : Operation}
    (h : op.accepted codec e = true) : op.OkStep codec e (op.after codec e) := by
  rw [accepted] at h
  rcases hrun : (op.perform codec).run (World.calm e) with ⟨status | exn | _, w'⟩
  · rw [hrun] at h
    exact ⟨_, status, w', hrun, h, by rw [after, hrun]⟩
  · simp [hrun] at h
  · simp [hrun] at h

end Operation

theorem Reachable.afterAll {codec : Codec} {e : StorageEngine} (h : Reachable codec e)
    (ops : List Operation) : Reachable codec (Operation.afterAll codec e ops) := by
  induction ops generalizing e with
  | nil => exact h
  | cons op ops ih => exact ih (h.step op (Stream'.const .ok))

theorem OkReachable.afterAll {codec : Codec} {e : StorageEngine}
    (h : OkReachable codec (fun _ _ => True) e) (ops : List Operation)
    (haccepted : Operation.acceptedAll codec e ops = true) :
    OkReachable codec (fun _ _ => True) (Operation.afterAll codec e ops) := by
  induction ops generalizing e with
  | nil => exact h
  | cons op ops ih =>
    obtain ⟨hop, hops⟩ := Bool.and_eq_true_iff.mp haccepted
    exact ih (h.step op trivial (Operation.okStep_after hop)) hops

/-! ### Creating and dropping a family -/

namespace StorageEngine

/-- The family is there already, or it is added empty. -/
def Created (e : StorageEngine) (n : Bytes) (e' : StorageEngine) : Prop :=
  e' = e ∨ n ∉ e.columnFamilies_ ∧ e.db_ = .opened ∧
    e' = e.withFamilies (e.columnFamilies_.insert n ∅)

theorem createCollection_ok_iff {e : StorageEngine} {fault : Option Bytes} {n : Bytes}
    {status : Status} {e' : StorageEngine} (h : e.createCollection fault n = (.ok status, e')) :
    e.Created n e' ∧ (status.ok = true → n ∉ e.columnFamilies_ ∧ e.db_ = .opened ∧
      e' = e.withFamilies (e.columnFamilies_.insert n ∅)) := by
  simp only [createCollection] at h
  split_ifs at h with hn hdb
  · obtain ⟨rfl, rfl⟩ : _ = status ∧ e = e' := by simpa using h
    exact ⟨Or.inl rfl, fun hok => absurd hok (by simp)⟩
  · simp at h
  · cases fault with
    | some text =>
      obtain ⟨rfl, rfl⟩ : _ = status ∧ e = e' := by simpa using h
      exact ⟨Or.inl rfl, fun hok => absurd hok (by simp)⟩
    | none =>
      obtain ⟨rfl, rfl⟩ : _ = status ∧ _ = e' := by simpa using h
      exact ⟨Or.inr ⟨hn, not_not.mp hdb, rfl⟩, fun _ => ⟨hn, not_not.mp hdb, rfl⟩⟩

/-- **What `createCollection` comes to**: the handle is used where no database is open, the
family is not created, or it is. -/
theorem createCollection_cases (e : StorageEngine) (fault : Option Bytes) (n : Bytes) :
    (e.createCollection fault n = (.error (.undefined .engineHandle), e) ∧
      n ∉ e.columnFamilies_ ∧ e.db_ ≠ .opened) ∨
    (∃ status, e.createCollection fault n = (.ok status, e) ∧ status.ok = false ∧
      (n ∈ e.columnFamilies_ ∨ fault.isSome = true)) ∨
    (e.createCollection fault n = (.ok .OK, e.withFamilies (e.columnFamilies_.insert n ∅)) ∧
      n ∉ e.columnFamilies_ ∧ e.db_ = .opened ∧ fault = none) := by
  simp only [createCollection]
  by_cases hn : n ∈ e.columnFamilies_
  · rw [if_pos hn]
    exact Or.inr (Or.inl ⟨_, rfl, rfl, Or.inl hn⟩)
  · rw [if_neg hn]
    by_cases hdb : e.db_ = .opened
    · rw [if_neg (not_not.mpr hdb)]
      cases fault with
      | some text => exact Or.inr (Or.inl ⟨_, rfl, rfl, Or.inr rfl⟩)
      | none => exact Or.inr (Or.inr ⟨rfl, hn, hdb, rfl⟩)
    · rw [if_pos hdb]
      exact Or.inl ⟨rfl, hn, hdb⟩

theorem dropCollection_ok_iff {e : StorageEngine} {fault : Option Bytes} {n : Bytes}
    (h : (e.dropCollection fault n).1.ok = true) :
    n ∈ e.columnFamilies_ ∧ n ≠ kDefaultColumnFamilyName ∧ fault = none ∧
      (e.dropCollection fault n).2 = e.withFamilies (e.columnFamilies_.erase n) := by
  simp only [dropCollection] at h ⊢
  split_ifs at h ⊢ with hn hdef
  · simp at h
  · cases fault with
    | some text => simp at h
    | none => exact ⟨hn, hdef, rfl, rfl⟩
  · simp at h

end StorageEngine

/-! ### Building an index -/

namespace Collection

variable {codec : Codec} {c : Collection} {w w' : World}

/-- The entry of one stored document in an index that is built: none if it has not the
field, an exception if it does not decode. -/
def buildStep (codec : Codec) (c : Collection) (index : Bytes) (serialized : Bytes) :
    Option (Except Exn Write) :=
  match Document.from_msgpack codec serialized with
  | .error exn => some (.error exn)
  | .ok doc =>
    if hasIndexField doc.data_ index then
      some ((entryKey codec doc index).map fun key => ⟨c.getIndexCfName index, key, some doc.id_⟩)
    else none

/-- The entries an index is built with, in the order of the ids. -/
def buildSteps (codec : Codec) (c : Collection) (index : Bytes)
    (entries : List (Bytes × Bytes)) : List (Except Exn Write) :=
  entries.filterMap fun entry => buildStep codec c index entry.2

theorem indexEntries_eq (index : Bytes) (entries : List (Bytes × Bytes)) :
    c.indexEntries codec index entries = Engine.writes (buildSteps codec c index entries) := by
  induction entries with
  | nil => rfl
  | cons entry entries ih =>
    obtain ⟨id, serialized⟩ := entry
    have hsteps : buildSteps codec c index ((id, serialized) :: entries) =
        (buildStep codec c index serialized).toList ++ buildSteps codec c index entries := by
      rw [buildSteps, List.filterMap_cons]
      cases buildStep codec c index serialized <;> rfl
    rw [hsteps, indexEntries, ih, buildStep]
    rcases Document.from_msgpack codec serialized with exn | doc
    · rfl
    · simp only
      change (if hasIndexField doc.data_ index then _ else _ : Engine Status) = _
      by_cases hf : hasIndexField doc.data_ index
      · rw [if_pos hf, if_pos hf, insertIfIndexFieldExists]
        rcases entryKey codec doc index with exn | key <;> rfl
      · rw [if_neg hf, if_neg hf]
        rfl

/-- The run of the part of `createIndex` that builds the index. -/
theorem run_buildIndex (cut : Option ℕ) (index : Bytes) :
    (c.buildIndex codec cut index).run w =
      if w.fates.head = .stop then (.stopped, w)
      else (Engine.writes (buildSteps codec c index (w.engine.walk c.name_ cut))).run
        (w.next w.engine) := by
  rw [buildIndex, Engine.cursor, Engine.run_call_bind]
  rcases w.fates.head with _ | text | _
  · simp [Fate.fault?, indexEntries_eq, StorageEngine.exec]
  · simp [Fate.fault?, indexEntries_eq, StorageEngine.exec]
  · rfl

end Collection

/-! ### What an operation that reports OK has done -/

namespace Operation

variable {codec : Codec} {e e' : StorageEngine}

theorem createCollection_okStep {name : Bytes}
    (h : (Operation.createCollection name).OkStep codec e e') :
    name ∉ e.columnFamilies_ ∧ e.db_ = .opened ∧
      e' = e.withFamilies (e.columnFamilies_.insert name ∅) := by
  obtain ⟨fates, status, w', hrun, hok, rfl⟩ := h
  rw [perform, Engine.createCollection, Engine.run_call_bind] at hrun
  rcases hf : (World.mk e fates).fates.head.fault? with _ | fault
  · simp [hf] at hrun
  · simp only [hf, StorageEngine.exec] at hrun
    rcases hc : e.createCollection fault name with ⟨exn | status', e₁⟩
    · simp [hc, Prog.ofExcept] at hrun
    · obtain ⟨rfl, rfl⟩ : status' = status ∧ _ = w' := by simpa [hc, Prog.ofExcept] using hrun
      exact (StorageEngine.createCollection_ok_iff hc).2 hok

theorem deleteIndex_okStep {c : Collection} {index : Bytes}
    (h : (Operation.deleteIndex c index).OkStep codec e e') :
    c.getIndexCfName index ∈ e.columnFamilies_ ∧
      e' = e.withFamilies (e.columnFamilies_.erase (c.getIndexCfName index)) := by
  obtain ⟨fates, status, w', hrun, hok, rfl⟩ := h
  rw [perform, Collection.deleteIndex, Engine.dropCollection,
    ← bind_pure (Prog.perform _), Engine.run_call_bind] at hrun
  rcases hf : (World.mk e fates).fates.head.fault? with _ | fault
  · simp [hf] at hrun
  · simp only [hf, StorageEngine.exec] at hrun
    obtain ⟨rfl, rfl⟩ : (e.dropCollection fault _).1 = status ∧ _ = w' := by simpa using hrun
    obtain ⟨hn, -, -, he'⟩ := StorageEngine.dropCollection_ok_iff hok
    exact ⟨hn, he'⟩

theorem document_okStep {c : Collection} {call : DocumentCall}
    (h : (Operation.document c call).OkStep codec e e') :
    ∃ ws, call.Completes codec c e ws ∧ e' = e.applyAll ws := by
  obtain ⟨fates, status, w', hrun, hok, rfl⟩ := h
  exact (DocumentCall.exists_complete_iff (w := ⟨e, fates⟩)
    (P := fun e' => w'.engine = e')).mp ⟨fates, status, w', hrun, hok, rfl⟩

theorem createIndex_okStep {c : Collection} {index : Bytes}
    (h : (Operation.createIndex c index).OkStep codec e e') :
    ∃ e₁ ws, e.Created (c.getIndexCfName index) e₁ ∧
      Collection.buildSteps codec c index (e₁.cursor c.name_) = ws.map .ok ∧
      (∀ x ∈ ws, x.family ∈ e₁.columnFamilies_) ∧ e' = e₁.applyAll ws := by
  obtain ⟨fates, status, w', hrun, hok, rfl⟩ := h
  rw [perform, Collection.createIndex, Engine.createCollection, bind_assoc,
    Engine.run_call_bind] at hrun
  rcases hf : (World.mk e fates).fates.head.fault? with _ | fault
  · simp [hf] at hrun
  simp only [hf, StorageEngine.exec] at hrun
  rcases hc : e.createCollection fault (c.getIndexCfName index) with ⟨exn | status₁, e₁⟩
  · simp only [hc] at hrun
    exact absurd (Prod.mk.inj hrun).1 (by simp)
  · simp only [hc] at hrun
    set w₁ : World := (World.mk e fates).next e₁
    have hrun' : Prog.run World.handle (Prog.tryCatch (c.buildIndex codec none index)
      fun exn => Prog.ofExcept (corruptionOf exn)) w₁ = (.ret status, w') := hrun
    have hbuild := @Collection.run_buildIndex codec c w₁ none index
    rw [Engine.run] at hbuild
    rw [Prog.run_tryCatch, hbuild] at hrun'
    by_cases hstop : w₁.fates.head = .stop
    · simp [hstop] at hrun'
    · rw [if_neg hstop] at hrun'
      set steps := Collection.buildSteps codec c index (w₁.engine.walk c.name_ none)
      have hengine := Engine.run_writes_engine (w := w₁.next w₁.engine) steps
      have hlanded := Engine.run_writes_ok_iff (w := w₁.next w₁.engine) steps
      rcases hw : (Engine.writes steps).run (w₁.next w₁.engine) with ⟨status₂ | exn | _, w₂⟩
      · rw [hw] at hrun' hengine hlanded
        obtain ⟨rfl, rfl⟩ : status₂ = status ∧ w₂ = w' := by simpa using hrun'
        have hall := hlanded.mp ⟨status₂, rfl, hok⟩
        exact ⟨e₁, _, (StorageEngine.createCollection_ok_iff hc).1, hall.symm,
          fun x hx => StorageEngine.mem_of_mem_landed hx, hengine⟩
      · -- what is thrown becomes a status, and that is not OK
        rw [hw] at hrun'
        cases exn with
        | exception what =>
          obtain ⟨rfl, -⟩ : _ = status ∧ w₂ = w' := by
            simpa [corruptionOf, Prog.ofExcept] using hrun'
          simp at hok
        | undefined u => simp [corruptionOf, Prog.ofExcept] at hrun'
      · rw [hw] at hrun'
        simp at hrun'

end Operation

end AnuDB
