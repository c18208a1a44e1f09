import AnuDB.IndexDrops

/-!
# Does a database survive closing?

RocksDB keeps what it holds over closing and opening. But `close` clears the cache first,
and every collection object that was handed out in the session drops the indexes of its
collection when it is destroyed.

So whether closing and opening again changes something depends on what is cached: it
changes nothing exactly if RocksDB refuses every drop of an index of a collection in the
cache (`AnuDB.Session.unchanged_of_reopen_iff`). There is nothing to refuse when those
collections have no indexes.
-/

namespace AnuDB

open Effect

/-! ### The default family -/

namespace StorageEngine

variable {e : StorageEngine} {n : Bytes}

/-- **RocksDB's default family is there** when the database is open, and on the path when
anything is. -/
def Rooted (e : StorageEngine) : Prop :=
  (e.db_ = .opened → kDefaultColumnFamilyName ∈ e.columnFamilies_) ∧
    (e.db_ ≠ .opened → e.disk.isEmpty = true ∨ kDefaultColumnFamilyName ∈ e.disk)

/-- New contents are rooted if they have the default family where it was. -/
theorem Rooted.withFamilies (h : e.Rooted) {m : ColumnFamilies}
    (hm : kDefaultColumnFamilyName ∈ e.columnFamilies_ → kDefaultColumnFamilyName ∈ m) :
    (e.withFamilies m).Rooted := by
  by_cases hdb : e.db_ = .opened
  · refine ⟨fun _ => ?_, fun hne => absurd (db_withFamilies.trans hdb) hne⟩
    rw [columnFamilies_withFamilies hdb]
    exact hm (h.1 hdb)
  · rwa [StorageEngine.withFamilies, dif_neg hdb]

theorem Rooted.insert (h : e.Rooted) (n : Bytes) (cf : ColumnFamily) :
    (e.withFamilies (e.columnFamilies_.insert n cf)).Rooted :=
  h.withFamilies fun hm => Std.ExtTreeMap.mem_insert.mpr (Or.inr hm)

/-- **Every call keeps the default family.** -/
theorem Rooted.exec (h : e.Rooted) (fault : Option Bytes) (x : Call) :
    (e.exec fault x).2.Rooted := by
  cases x with
  | «open» =>
    simp only [StorageEngine.exec, StorageEngine.open]
    rcases fault with _ | text
    · by_cases hdb : e.db_ = .opened
      · simpa only [if_pos hdb] using h
      · -- a path with nothing on it gets the default family
        simp only [if_neg hdb]
        refine ⟨fun _ => ?_, fun hne => absurd rfl hne⟩
        change kDefaultColumnFamilyName ∈ if e.disk.isEmpty then _ else _
        split_ifs with hempty
        · exact Std.ExtTreeMap.mem_insert_self
        · exact (h.2 hdb).resolve_left hempty
    · exact h
  | close =>
    simp only [StorageEngine.exec, StorageEngine.close]
    rcases hdb : e.db_ with _ | _ | _ | _
    · exact h
    · exact h
    · -- what was open is on the path
      have hdisk : kDefaultColumnFamilyName ∈ e.columnFamilies_ := h.1 hdb
      cases fault <;> exact ⟨fun hne => absurd hne (by simp), fun _ => Or.inr (by simpa using hdisk)⟩
    · have hdisk := h.2 (by simp [hdb])
      cases fault <;> exact ⟨fun hne => absurd hne (by simp), fun _ => by simpa using hdisk⟩
  | createCollection name =>
    simp only [StorageEngine.exec, createCollection]
    split_ifs
    · exact h
    · exact h
    · cases fault with
      | some text => exact h
      | none => exact h.insert name ∅
  | dropCollection name =>
    simp only [StorageEngine.exec, dropCollection]
    split_ifs with hname hdefault
    · exact h
    · cases fault with
      | some text => exact h
      | none =>
        -- the default family is refused before
        exact h.withFamilies fun hm => (Std.ExtTreeMap.mem_erase).mpr
          ⟨fun heq => hdefault (Std.LawfulEqCmp.eq_of_compare heq), hm⟩
    · exact h
  | put collection key value =>
    simp only [StorageEngine.exec, put]
    rcases e.columnFamilies_[collection]? with _ | cf
    · exact h
    · cases fault with
      | some text => exact h
      | none => exact h.insert collection _
  | remove collection key =>
    simp only [StorageEngine.exec, remove]
    rcases e.columnFamilies_[collection]? with _ | cf
    · exact h
    · cases fault with
      | some text => exact h
      | none => exact h.insert collection _
  | _ => exact h

theorem rooted_unopened : unopened.Rooted :=
  ⟨fun h => absurd h (by simp [unopened]), fun _ => Or.inl rfl⟩

end StorageEngine

/-- A run of a program keeps the default family, however it ends. -/
theorem rooted_run {α : Type} {p : Engine α} {w : World} (h : w.engine.Rooted) :
    (p.run w).2.engine.Rooted := by
  refine Prog.run_of_uses (I := fun w w' => w.engine.Rooted → w'.engine.Rooted) (fun _ h => h) ?_ ?_
    (Prog.uses_of_forall (P := fun _ => True) (fun _ => trivial) p) w h
  · exact fun hst htu hs => htu (hst hs)
  · intro x s r s' _ hhandle hs
    obtain ⟨fault, hexec, -⟩ := World.exists_fault_of_handle hhandle
    have hrooted := hs.exec fault x
    rwa [hexec] at hrooted

/-- The default family is there in every state of a session. -/
theorem Session.Reachable.rooted {codec : Codec} {s : Session} (h : s.Reachable codec) :
    s.engine.Rooted := by
  obtain ⟨history, hrun⟩ := h
  refine hrun.invariant (I := fun s => s.engine.Rooted) StorageEngine.rooted_unopened ?_
  rintro s call s' hs ⟨-, fates, outcome, w', hrun, hengine, -⟩
  have hrooted := rooted_run (p := call.perform codec s.database) (w := ⟨s.engine, fates⟩) hs
  rw [hrun] at hrooted
  rwa [← hengine]

/-! ### The destructors -/

namespace StorageEngine

variable {e : StorageEngine} {r : Stream' (Option Bytes)} {collections : List Collection}

/-- The engine after collections are destroyed, one after the other, and the refusals that
are left. -/
def destroyed (e : StorageEngine) : Stream' (Option Bytes) → List Collection →
    StorageEngine × Stream' (Option Bytes)
  | r, [] => (e, r)
  | r, c :: collections =>
    destroyed (e.dropIndexes c.name_ r.tail (e.getIndexNames c.name_))
      (r.tail.drop (e.getIndexNames c.name_).length) collections

/-- **RocksDB refuses every drop** when the collections are destroyed: each first has its
indexes listed, and then dropped. -/
def DropsRefused (e : StorageEngine) : Stream' (Option Bytes) → List Collection → Prop
  | _, [] => True
  | r, c :: collections =>
    refused r.tail (e.getIndexNames c.name_) = e.getIndexNames c.name_ ∧
      DropsRefused e (r.tail.drop (e.getIndexNames c.name_).length) collections

theorem mem_of_mem_destroyed {n : Bytes} (h : n ∈ (e.destroyed r collections).1.columnFamilies_) :
    n ∈ e.columnFamilies_ := by
  induction collections generalizing e r with
  | nil => exact h
  | cons c collections ih => exact mem_of_mem_dropIndexes (ih h)

theorem db_dropIndexes {c : Bytes} {indexes : List Bytes} :
    (e.dropIndexes c r indexes).db_ = e.db_ := by
  induction indexes generalizing e r with
  | nil => rfl
  | cons index indexes ih =>
    rw [dropIndexes, ih]
    simp only [dropCollection]
    split_ifs
    · rfl
    · cases r.head with
      | some text => rfl
      | none => exact db_withFamilies
    · rfl

theorem db_destroyed : (e.destroyed r collections).1.db_ = e.db_ := by
  induction collections generalizing e r with
  | nil => rfl
  | cons c collections ih => rw [destroyed, ih, db_dropIndexes]

/-- **Destroying collections changes nothing** exactly if every drop is refused. -/
theorem contents_destroyed_iff :
    (e.destroyed r collections).1.contents = e.contents ↔ e.DropsRefused r collections := by
  induction collections generalizing r with
  | nil => exact iff_of_true rfl trivial
  | cons c collections ih =>
    rw [destroyed, DropsRefused]
    constructor
    · intro h
      -- what is not there after the first one does not come back
      have hlisted : refused r.tail (e.getIndexNames c.name_) = e.getIndexNames c.name_ := by
        rw [← getIndexNames_dropIndexes]
        refine getIndexNames_congr (fun n => ⟨mem_of_mem_dropIndexes, fun hn => ?_⟩) c.name_
        exact mem_of_mem_destroyed ((mem_congr (congrFun h n)).mpr hn)
      rw [dropIndexes_of_refused hlisted] at h
      exact ⟨hlisted, ih.mp h⟩
    · rintro ⟨hlisted, hrest⟩
      rw [dropIndexes_of_refused hlisted]
      exact ih.mpr hrest

end StorageEngine

/-! ### Closing and opening -/

namespace StorageEngine

variable {e : StorageEngine} {fault : Option Bytes}

/-- An open engine that is closed leaves its families on the path. -/
theorem close_ok {status : Status} {e' : StorageEngine} (hdb : e.db_ = .opened)
    (h : e.close fault = (.ok status, e')) (hok : status.ok = true) :
    e'.db_ = .null ∧ e'.disk = e.columnFamilies_ := by
  simp only [close, hdb, if_true] at h
  cases fault with
  | some text =>
    obtain ⟨rfl, -⟩ : _ = status ∧ _ = e' := by simpa using h
    exact absurd hok (by simp)
  | none =>
    obtain ⟨-, rfl⟩ : _ = status ∧ _ = e' := by simpa using h
    exact ⟨rfl, rfl⟩

/-- An engine that is opened has the families of the path. -/
theorem open_ok (hdisk : e.disk.isEmpty = false) (hok : (e.open fault).1.ok = true) :
    (e.open fault).2.columnFamilies_ = e.disk := by
  cases fault with
  | some text => exact absurd hok (by simp [StorageEngine.open])
  | none =>
    simp only [StorageEngine.open] at hok ⊢
    split_ifs at hok ⊢ with hdb hempty
    · exact absurd hok (by simp)
    · exact absurd hdisk (by simp [hempty])
    · rfl

end StorageEngine

namespace Database

variable {db : Database} {e : StorageEngine} {r : Stream' (Option Bytes)}

theorem run_destroyAll (collections : List Collection) :
    (destroyAll collections).run (.refusing e r) =
      (.ret (), .refusing (e.destroyed r collections).1 (e.destroyed r collections).2) := by
  induction collections generalizing e r with
  | nil => rfl
  | cons c collections ih =>
    rw [destroyAll, Engine.run_bind_of_ret Collection.run_destroy]
    exact ih

/-- A `close` that reports OK leaves on the path what the destructors left. -/
theorem close_ok {closed : Status × Database} {w : World} (hdb : e.db_ = .opened)
    (h : db.close.run (.refusing e r) = (.ret closed, w)) (hok : closed.1.ok = true) :
    w.engine.db_ = .null ∧
      w.engine.disk = (e.destroyed r db.collections_).1.columnFamilies_ := by
  rw [close, Engine.run_bind_of_ret (run_destroyAll db.collections_)] at h
  set e₁ := (e.destroyed r db.collections_).1
  set r₁ := (e.destroyed r db.collections_).2
  have hdb₁ : e₁.db_ = .opened := StorageEngine.db_destroyed.trans hdb
  rw [Engine.close, bind_assoc, Engine.run_call_bind_refusing] at h
  simp only [StorageEngine.exec] at h
  rcases hc : e₁.close r₁.head with ⟨exn | status, e₂⟩
  · rw [hc] at h
    exact absurd (Prod.mk.inj h).1 (by simp)
  · rw [hc] at h
    obtain ⟨hret, rfl⟩ := Prod.mk.inj h
    obtain rfl := Outcome.ret.inj hret
    exact StorageEngine.close_ok hdb₁ hc hok

/-- An `open` that reports OK brings back what is on the path. -/
theorem open_ok {reopened : Status × Database} {fates : Stream' Fate} {w : World}
    (hdisk : e.disk.isEmpty = false) (h : db.open.run ⟨e, fates⟩ = (.ret reopened, w))
    (hok : reopened.1.ok = true) : w.engine.columnFamilies_ = e.disk := by
  rw [Database.open, Engine.open, Engine.run_call_bind] at h
  rcases hf : (World.mk e fates).fates.head.fault? with _ | fault
  · simp [hf] at h
  · simp only [hf, StorageEngine.exec] at h
    obtain ⟨rfl, rfl⟩ : _ = reopened ∧ _ = w := by simpa using h
    exact StorageEngine.open_ok hdisk hok

end Database

/-! ### What a database is after closing and opening -/

namespace Session

variable {codec : Codec} {s : Session} {r : Stream' (Option Bytes)}

/-- **Closing and opening again changes nothing exactly if every drop is refused** that the
destructors of the collections in the cache ask for.

The destructors run while the database is open; what they leave is what is on the path
when it is closed, and it is not empty, so it is what is there when it is opened again. -/
theorem unchanged_of_reopen_iff (hs : s.Reachable codec) (hdb : s.engine.db_ = .opened)
    {closed reopened : Status × Database} {fates : Stream' Fate} {w w' : World}
    (hclose : s.database.close.run (.refusing s.engine r) = (.ret closed, w))
    (hclosed : closed.1.ok = true)
    (hopen : closed.2.open.run ⟨w.engine, fates⟩ = (.ret reopened, w'))
    (hopened : reopened.1.ok = true) :
    s.engine.Unchanged w'.engine ↔ s.engine.DropsRefused r s.database.collections_ := by
  obtain ⟨-, hdisk⟩ := Database.close_ok hdb hclose hclosed
  set e₁ := (s.engine.destroyed r s.database.collections_).1
  -- the default family is still there, so the path is not empty
  have hrooted : e₁.Rooted := by
    have hrun := rooted_run (p := Database.destroyAll s.database.collections_)
      (w := .refusing s.engine r) hs.rooted
    rwa [Database.run_destroyAll] at hrun
  have hdefault : kDefaultColumnFamilyName ∈ e₁.columnFamilies_ :=
    hrooted.1 (StorageEngine.db_destroyed.trans hdb)
  have hne : w.engine.disk.isEmpty = false := by
    rw [hdisk, Std.ExtTreeMap.isEmpty_eq_false_iff]
    exact fun hempty => Std.ExtTreeMap.not_mem_empty (hempty ▸ hdefault)
  have hfamilies : w'.engine.columnFamilies_ = e₁.columnFamilies_ :=
    (Database.open_ok hne hopen hopened).trans hdisk
  have hcontents : w'.engine.contents = e₁.contents := by
    funext n
    rw [StorageEngine.contents, hfamilies]
    rfl
  rw [StorageEngine.unchanged_iff, hcontents]
  exact StorageEngine.contents_destroyed_iff

/-- The database is opened and a collection is created; then calls are made on it. -/
def onNewCollection (calls : List CollectionCall) : Session :=
  Session.new.afterAll .standard
    (.open :: .createCollection letterC.name_ :: calls.map (.collection letterC))

/-- Closing and opening again, where every call to RocksDB goes through: both report OK, and
this is the engine that is left. -/
def ReopensTo (s : Session) (e : StorageEngine) : Prop :=
  ∃ closed w reopened w', s.database.close.run (.calm s.engine) = (.ret closed, w) ∧
    closed.1.ok = true ∧ closed.2.open.run ⟨w.engine, Stream'.const .ok⟩ = (.ret reopened, w') ∧
    reopened.1.ok = true ∧ w'.engine = e

theorem unchanged_unindexed : ∃ e, (onNewCollection [.document createPlain]).ReopensTo e ∧
    (onNewCollection [.document createPlain]).engine.Unchanged e := by
  have hreachable : (onNewCollection [.document createPlain]).Reachable .standard :=
    reachable_new.afterAll (by decide +kernel)
  have hreopens : (onNewCollection [.document createPlain]).ReopensTo _ :=
    ⟨_, _, _, _, by rfl, by rfl, by rfl, by rfl, rfl⟩
  obtain ⟨closed, w, reopened, w', hclose, hclosed, hopen, hopened, -⟩ := hreopens
  have hiff := unchanged_of_reopen_iff (r := Stream'.const none) hreachable (by decide +kernel)
    hclose hclosed hopen hopened
  -- the only collection in the cache has no index
  refine ⟨_, ⟨closed, w, reopened, w', hclose, hclosed, hopen, hopened, rfl⟩, hiff.mpr ?_⟩
  exact ⟨by decide +kernel, trivial⟩

/-- **An index does not survive closing**: a collection that was created in the session, with
an index, is closed and opened again, and has none. -/
theorem not_unchanged_of_cached :
    (onNewCollection [.createIndex (Bytes.ofText "f")]).Reachable .standard ∧
      (onNewCollection [.createIndex (Bytes.ofText "f")]).engine.db_ = .opened ∧
      ∃ e, (onNewCollection [.createIndex (Bytes.ofText "f")]).ReopensTo e ∧
        ¬(onNewCollection [.createIndex (Bytes.ofText "f")]).engine.Unchanged e := by
  refine ⟨reachable_new.afterAll (by decide +kernel), by decide +kernel, _,
    ⟨_, _, _, _, by rfl, by rfl, by rfl, by rfl, rfl⟩, fun h => ?_⟩
  have hnames := (h.2 letterC.name_).2.1
  exact absurd hnames (by decide +kernel)

end Session

end AnuDB
