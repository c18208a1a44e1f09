import AnuDB.Persistence

/-!
# Is dropping a collection safe?

`dropCollection` takes the object of the name out of the cache, and it is destroyed there;
it asks `getCollection` for another one, drops the indexes that are left through that, and
drops the family of the collection last. It does not look whether it was given an object,
and it does not look at the statuses of the drops before the last one.

The run is followed in worlds in which RocksDB refuses what it is said to refuse
(`AnuDB.Database.run_dropCollection_of_mem`). It ends at a null pointer exactly if there is no
family of the name. Where there is one, it is as it should be in two cases
(`AnuDB.Session.Traced.dropIsSafe_iff`): the name is a collection's and its family is dropped, or
the family is not dropped and none of the indexes is.

Which names are those of collections is not seen in the families, so a session is looked at
together with the names of which `createCollection` has made a family that is still there
(`AnuDB.Session.Traced`).
-/

namespace AnuDB

open Effect

namespace Database

variable (db : Database) (e : StorageEngine) (r : Stream' (Option Bytes)) (name : Bytes)

/-! ### What RocksDB refuses -/

/-- The indexes that are left when the object of the name has left the cache: destroying it
has dropped the others. -/
def left : List Bytes :=
  match db.find name with
  | none => e.getIndexNames name
  | some _ => refused r.tail (e.getIndexNames name)

/-- What the calls meet from there on. -/
def later : Stream' (Option Bytes) :=
  match db.find name with
  | none => r
  | some _ => r.tail.drop (e.getIndexNames name).length

/-- What the drops of the indexes that are left meet: `collectionExists` and `getIndexNames`
come before them. -/
def indexRefusals : Stream' (Option Bytes) := (db.later e r name).tail.tail

/-- What the last call meets, which drops the family of the collection. -/
def lastRefusal : Option Bytes :=
  ((db.indexRefusals e r name).drop (db.left e r name).length).head

/-- **RocksDB refuses every drop of an index**, of the destructor and after it. -/
def IndexesRefused : Prop :=
  db.left e r name = e.getIndexNames name ∧
    refused (db.indexRefusals e r name) (db.left e r name) = db.left e r name

/-- RocksDB refuses to drop the family of the collection, as it always does the default
one. -/
def FamilyRefused : Prop :=
  name = kDefaultColumnFamilyName ∨ (db.lastRefusal e r name).isSome = true

/-! ### The run -/

variable {db e r name}

/-- The database when the object of a name has left the cache. -/
def erased (db : Database) (name : Bytes) : Database :=
  { db with collections_ := db.collections_.filter fun c => c.name_ ≠ name }

/-- The engine when the object of a name has left the cache. -/
def evicted (db : Database) (e : StorageEngine) (r : Stream' (Option Bytes)) (name : Bytes) :
    StorageEngine :=
  match db.find name with
  | none => e
  | some _ => e.dropIndexes name r.tail (e.getIndexNames name)

theorem find_erased : (db.erased name).find name = none := by
  rw [find, List.find?_eq_none]
  intro c hc
  simpa using (List.mem_filter.mp hc).2

theorem run_erase : (db.erase name).run (.refusing e r) =
    (.ret (db.erased name), .refusing (db.evicted e r name) (db.later e r name)) := by
  rw [erase, evicted, later]
  rcases hfind : db.find name with _ | c
  · have hall : db.collections_.filter (fun c => c.name_ ≠ name) = db.collections_ := by
      rw [List.filter_eq_self]
      intro c hc
      simpa using List.find?_eq_none.mp hfind c hc
    rw [erased, hall]
    rfl
  · obtain rfl : c.name_ = name := by simpa using List.find?_some hfind
    rw [Engine.run_bind_of_ret Collection.run_destroy]
    rfl

/-- What happens while the object leaves the cache is not seen at the name itself. -/
theorem mem_evicted : name ∈ (db.evicted e r name).columnFamilies_ ↔ name ∈ e.columnFamilies_ := by
  rw [evicted]
  rcases db.find name with _ | c
  · exact Iff.rfl
  · exact StorageEngine.mem_congr
      (StorageEngine.contents_dropIndexes fun f hf => indexFamily_ne name f hf.symm)

theorem getIndexNames_evicted : (db.evicted e r name).getIndexNames name = db.left e r name := by
  rw [evicted, left]
  rcases db.find name with _ | c
  · rfl
  · exact StorageEngine.getIndexNames_dropIndexes

/-- What `getCollection` gives where no object is in the cache. -/
theorem run_getCollection (hfind : db.find name = none) :
    (db.getCollection name).run (.refusing e r) =
      if name ∈ e.columnFamilies_ then
        (.ret (some ⟨name⟩, { db with collections_ := ⟨name⟩ :: db.collections_ }),
          .refusing e r.tail)
      else (.ret (none, db), .refusing e r.tail) := by
  simp only [getCollection, hfind]
  rw [Engine.collectionExists, Engine.run_call_bind_refusing]
  simp only [StorageEngine.exec, StorageEngine.collectionExists,
    Std.ExtTreeMap.contains_iff_mem]
  by_cases hname : name ∈ e.columnFamilies_
  · rw [if_pos hname, if_pos hname]
    rfl
  · rw [if_neg hname, if_neg hname]
    rfl

/-- **Where no family has the name, a null pointer is dereferenced.** -/
theorem run_dropCollection_of_notMem (hname : name ∉ e.columnFamilies_) :
    ((db.dropCollection name).run (.refusing e r)).1 = .raise (.undefined .nullCollection) := by
  have hget := run_getCollection (e := db.evicted e r name) (r := db.later e r name)
    (@find_erased db name)
  rw [if_neg (mt mem_evicted.mp hname)] at hget
  rw [dropCollection, Engine.run_bind_of_ret run_erase, Engine.run_bind_of_ret hget]
  rfl

/-- The engine when the indexes that were left have been dropped too. -/
def stripped (db : Database) (e : StorageEngine) (r : Stream' (Option Bytes)) (name : Bytes) :
    StorageEngine :=
  (db.evicted e r name).dropIndexes name (db.indexRefusals e r name) (db.left e r name)

/-- The database when the object of a name has left the cache and another one has come. -/
def replaced (db : Database) (name : Bytes) : Database :=
  { db.erased name with collections_ := ⟨name⟩ :: (db.erased name).collections_ }

/-- **Where a family has the name**, the indexes that are left are dropped, and then the
family; what that reports is reported, and there is another object in the cache. -/
theorem run_dropCollection_of_mem (hname : name ∈ e.columnFamilies_) :
    (db.dropCollection name).run (.refusing e r) =
      (.ret (((db.stripped e r name).dropCollection (db.lastRefusal e r name) name).1,
          db.replaced name),
        .refusing ((db.stripped e r name).dropCollection (db.lastRefusal e r name) name).2
          ((db.indexRefusals e r name).drop (db.left e r name).length).tail) := by
  have hget := run_getCollection (e := db.evicted e r name) (r := db.later e r name)
    (@find_erased db name)
  rw [if_pos (mem_evicted.mpr hname)] at hget
  have hdelete := Collection.run_deleteIndexes (c := ⟨name⟩) (e := db.evicted e r name)
    (r := (db.later e r name).tail.tail) (db.left e r name)
  rw [dropCollection, Engine.run_bind_of_ret run_erase, Engine.run_bind_of_ret hget]
  simp only [Collection.getIndex]
  rw [Engine.getIndexNames, Engine.run_call_bind_refusing]
  -- what is listed is what is left
  simp only [StorageEngine.exec, getIndexNames_evicted]
  rw [Engine.run_bind_of_ret hdelete, Engine.dropCollection, Engine.run_call_bind_refusing]
  rfl

/-! ### What it leaves -/

/-- No family comes while the object leaves the cache. -/
theorem mem_of_mem_evicted {n : Bytes} (h : n ∈ (db.evicted e r name).columnFamilies_) :
    n ∈ e.columnFamilies_ := by
  rw [evicted] at h
  rcases hfind : db.find name with _ | c
  · rwa [hfind] at h
  · rw [hfind] at h
    exact StorageEngine.mem_of_mem_dropIndexes h

theorem evicted_of_left (h : db.left e r name = e.getIndexNames name) :
    db.evicted e r name = e := by
  rw [left] at h
  rw [evicted]
  rcases hfind : db.find name with _ | c
  · rfl
  · rw [hfind] at h
    exact StorageEngine.dropIndexes_of_refused h

/-- **The indexes are the ones before** exactly if every drop of one is refused. -/
theorem contents_stripped_iff :
    (db.stripped e r name).contents = e.contents ↔ db.IndexesRefused e r name := by
  rw [stripped, ← getIndexNames_evicted]
  constructor
  · intro h
    -- an index that goes while the object leaves the cache does not come back
    have hleft : db.left e r name = e.getIndexNames name := by
      rw [← getIndexNames_evicted]
      refine StorageEngine.getIndexNames_congr (fun n => ⟨mem_of_mem_evicted, fun hn => ?_⟩) name
      exact StorageEngine.mem_of_mem_dropIndexes ((StorageEngine.mem_congr (congrFun h n)).mpr hn)
    refine ⟨hleft, ?_⟩
    rw [← getIndexNames_evicted]
    rw [← congrArg StorageEngine.contents (evicted_of_left hleft)] at h
    exact StorageEngine.contents_dropIndexes_iff.mp h
  · rintro ⟨hleft, hrefused⟩
    rw [getIndexNames_evicted, StorageEngine.dropIndexes_of_refused hrefused, evicted_of_left hleft]

theorem mem_stripped : name ∈ (db.stripped e r name).columnFamilies_ ↔ name ∈ e.columnFamilies_ :=
  (StorageEngine.mem_congr (StorageEngine.contents_dropIndexes fun f hf =>
    indexFamily_ne name f hf.symm)).trans mem_evicted

/-- The last call, refused. -/
theorem dropCollection_of_refused (hname : name ∈ e.columnFamilies_)
    (h : db.FamilyRefused e r name) :
    ((db.stripped e r name).dropCollection (db.lastRefusal e r name) name).1.ok = false ∧
      ((db.stripped e r name).dropCollection (db.lastRefusal e r name) name).2 =
        db.stripped e r name := by
  simp only [StorageEngine.dropCollection, if_pos (mem_stripped.mpr hname)]
  by_cases hdefault : name = kDefaultColumnFamilyName
  · rw [if_pos hdefault]
    exact ⟨rfl, rfl⟩
  · obtain ⟨text, htext⟩ := Option.isSome_iff_exists.mp (h.resolve_left hdefault)
    rw [if_neg hdefault, htext]
    exact ⟨rfl, rfl⟩

/-- The last call, not refused. -/
theorem dropCollection_of_not_refused (hname : name ∈ e.columnFamilies_)
    (h : ¬db.FamilyRefused e r name) :
    ((db.stripped e r name).dropCollection (db.lastRefusal e r name) name).1.ok = true := by
  obtain ⟨hdefault, hlast⟩ := not_or.mp h
  rw [Option.not_isSome_iff_eq_none] at hlast
  rw [hlast, StorageEngine.dropCollection_none (mem_stripped.mpr hname) hdefault]
  rfl

end Database

/-! ### The collections of a session -/

/-- The families of the path: those there are handles of while the database is open, and else
those it is opened with. -/
def StorageEngine.families (e : StorageEngine) : ColumnFamilies :=
  if e.db_ = .opened then e.columnFamilies_ else e.disk

namespace Session

/-- **The collections there are after a call**: those there were, and the one `createCollection`
has made a family of, as far as the families are there. -/
def collections (s : Session) (call : SessionCall) (s' : Session) (K : Set Bytes) : Set Bytes :=
  {n | n ∈ s'.engine.families ∧
    (n ∈ K ∨ call = .createCollection n ∧ n ∉ s.engine.families)}

/-- **The sessions a new database comes to, with their collections**, by calls in any order, with
any outcome. -/
inductive Reaches (codec : Codec) : Session → Set Bytes → Prop
  | new : Reaches codec .new ∅
  | step {s s' : Session} {K : Set Bytes} {call : SessionCall} (h : Reaches codec s K)
      (hstep : s.Step codec call s') : Reaches codec s' (s.collections call s' K)

/-- **A session that is reached**, and the collections that have been created in it and not been
dropped since. -/
structure Traced (codec : Codec) where
  /-- The session. -/
  session : Session
  /-- The names of the collections. -/
  collections : Set Bytes
  /-- A new database comes to the two. -/
  reached : Reaches codec session collections

variable {codec : Codec} {s : Session} {K : Set Bytes}

theorem Reaches.reachable (h : Reaches codec s K) : s.Reachable codec := by
  induction h with
  | new => exact reachable_new
  | step _ hstep ih => exact ih.step hstep

/-- Every session that is reached has its collections, and there are no others. -/
theorem reachable_iff_exists_traced : s.Reachable codec ↔ ∃ t : Traced codec, t.session = s := by
  constructor
  · rintro ⟨history, hrun⟩
    exact hrun.invariant (I := fun s => ∃ t : Traced codec, t.session = s) ⟨⟨_, _, .new⟩, rfl⟩
      fun ⟨t, ht⟩ hstep => ⟨⟨_, _, t.reached.step (ht ▸ hstep)⟩, rfl⟩
  · rintro ⟨t, rfl⟩
    exact t.reached.reachable

/-- Collections have families. -/
theorem Reaches.mem_families (h : Reaches codec s K) {n : Bytes} (hn : n ∈ K) :
    n ∈ s.engine.families := by
  cases h with
  | new => exact absurd hn (Set.notMem_empty n)
  | step _ _ => exact hn.1

namespace Traced

variable (t : Traced codec) (r : Stream' (Option Bytes)) (name : Bytes)

/-! ### When dropping a collection is safe -/

/-- The run of `dropCollection`. -/
def dropped : Outcome Exn (Status × Database) × World :=
  (t.session.database.dropCollection name).run (.refusing t.session.engine r)

/-- **Dropping a collection is safe and all-or-nothing**, in a world. -/
structure DropIsSafe : Prop where
  /-- No null pointer is dereferenced. -/
  not_null : (t.dropped r name).1 ≠ .raise (.undefined .nullCollection)
  /-- What is no collection is not reported dropped. -/
  not_ok : ∀ status db', (t.dropped r name).1 = .ret (status, db') → name ∉ t.collections →
    status.ok = false
  /-- Where the status is not OK, the documents and the indexes are the ones before. -/
  unchanged : ∀ status db', (t.dropped r name).1 = .ret (status, db') → status.ok = false →
    t.session.engine.Unchanged (t.dropped r name).2.engine

/-- **The condition.** There is a family of the name; if RocksDB refuses to drop it then it
refuses to drop each of its indexes too, and if not then the name is a collection's. -/
def DropCondition : Prop :=
  name ∈ t.session.engine.columnFamilies_ ∧
    (t.session.database.FamilyRefused t.session.engine r name →
      t.session.database.IndexesRefused t.session.engine r name) ∧
    (¬t.session.database.FamilyRefused t.session.engine r name → name ∈ t.collections)

variable {t r name}

/-- What there is to show of a run that returns. -/
theorem dropIsSafe_iff_of_run {status : Status} {db' : Database} {w : World}
    (hrun : t.dropped r name = (.ret (status, db'), w)) :
    t.DropIsSafe r name ↔ (name ∉ t.collections → status.ok = false) ∧
      (status.ok = false → w.engine.contents = t.session.engine.contents) := by
  constructor
  · intro h
    refine ⟨h.not_ok status db' (by rw [hrun]), fun hbad => ?_⟩
    have hunchanged := h.unchanged status db' (by rw [hrun]) hbad
    rw [hrun] at hunchanged
    exact StorageEngine.unchanged_iff.mp hunchanged
  · rintro ⟨hnot, hsame⟩
    refine ⟨by simp [hrun], fun status' db'' hret => ?_, fun status' db'' hret hbad => ?_⟩
    · rw [hrun] at hret
      obtain ⟨rfl, -⟩ := Prod.mk.inj (Outcome.ret.inj hret)
      exact hnot
    · rw [hrun] at hret ⊢
      obtain ⟨rfl, -⟩ := Prod.mk.inj (Outcome.ret.inj hret)
      exact StorageEngine.unchanged_iff.mpr (hsame hbad)

/-- Where a family has the name. -/
theorem dropIsSafe_iff_of_mem (hname : name ∈ t.session.engine.columnFamilies_) :
    t.DropIsSafe r name ↔ (t.session.database.FamilyRefused t.session.engine r name →
        t.session.database.IndexesRefused t.session.engine r name) ∧
      (¬t.session.database.FamilyRefused t.session.engine r name → name ∈ t.collections) := by
  have hrun := @Database.run_dropCollection_of_mem t.session.database _ r _ hname
  rw [dropIsSafe_iff_of_run hrun]
  by_cases hrefused : t.session.database.FamilyRefused t.session.engine r name
  · -- not OK, and what is left is what the drops of the indexes left
    obtain ⟨hbad, hengine⟩ := Database.dropCollection_of_refused hname hrefused
    change _ ∧ (_ → (StorageEngine.dropCollection _ _ _).2.contents = _) ↔ _
    rw [hbad, hengine, Database.contents_stripped_iff]
    simp [hrefused]
  · -- OK, so it has to be a collection
    rw [Database.dropCollection_of_not_refused hname hrefused]
    simp [hrefused]

/-- **Dropping a collection is safe and all-or-nothing exactly under the condition.** -/
theorem dropIsSafe_iff : t.DropIsSafe r name ↔ t.DropCondition r name := by
  by_cases hname : name ∈ t.session.engine.columnFamilies_
  · rw [dropIsSafe_iff_of_mem hname, DropCondition, and_iff_right hname]
  · refine iff_of_false (fun h => h.not_null ?_) fun h => hname h.1
    exact Database.run_dropCollection_of_notMem hname

/-- A collection that has been created can be dropped, whatever its name, where RocksDB drops its
family. -/
theorem dropIsSafe_of_created (hdb : t.session.engine.db_ = .opened) (hname : name ∈ t.collections)
    (hdropped : ¬t.session.database.FamilyRefused t.session.engine r name) :
    t.DropIsSafe r name := by
  have hmem := t.reached.mem_families hname
  rw [StorageEngine.families, if_pos hdb] at hmem
  exact (dropIsSafe_iff_of_mem hmem).mpr ⟨fun h => absurd h hdropped, fun _ => hname⟩

/-- **A name that was never created**: the database has just been opened. -/
theorem not_dropIsSafe_of_unknown : ∃ t : Traced .standard,
    t.session = Session.new.afterAll .standard [.open] ∧ t.session.engine.db_ = .opened ∧
      ¬t.DropIsSafe (Stream'.const none) letterC.name_ := by
  obtain ⟨t, ht⟩ := reachable_iff_exists_traced.mp (@Session.Reachable.afterAll .standard _ [.open]
    Session.reachable_new (by decide +kernel))
  refine ⟨t, ht, ht ▸ by decide +kernel, fun h => h.not_null ?_⟩
  exact Database.run_dropCollection_of_notMem (ht ▸ by decide +kernel)

end Traced

end Session

end AnuDB
