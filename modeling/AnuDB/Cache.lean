import AnuDB.Events

/-!
# Does the cache agree with the engine?

`getCollection` gives out what is in the cache, and looks at the engine only where nothing is.
So it tells whether a collection exists exactly if every object in the cache is that of a
family that is there (`AnuDB.Session.cacheAgrees_iff`).

Opening a database, creating collections and obtaining them keeps that. Dropping one does not:
`dropCollection` obtains the object it deletes the indexes with from `getCollection`, which puts
it into the cache, where it still is when the family has been dropped. A run keeps the
agreement exactly if no drop goes through, of a family that has an object in the cache
(`AnuDB.Session.cacheAgrees_of_keepsCached`).
-/

namespace AnuDB

open Effect

/-! ### What the calls leave in the cache -/

namespace Database

variable {db : Database} {e : StorageEngine} {r : Stream' (Option Bytes)} {name : Bytes}

theorem run_open : db.open.run (.refusing e r) =
    (.ret ((e.open r.head).1, { db with isDbOpen_ := true }), .refusing (e.open r.head).2 r.tail) := by
  rw [Database.open, Engine.open, Engine.run_call_bind_refusing]
  rfl

/-- A collection that is created has another object in the cache. -/
theorem run_createCollection {status : Status} {e' : StorageEngine}
    (h : e.createCollection r.head name = (.ok status, e')) (hok : status.ok = true) :
    (db.createCollection name).run (.refusing e r) = (.ret (.OK, db.replaced name),
      .refusing (db.evicted e' r.tail name) (db.later e' r.tail name)) := by
  rw [Database.createCollection, Engine.createCollection, bind_assoc, Engine.run_call_bind_refusing]
  simp only [StorageEngine.exec, h]
  change Engine.run (if status.ok then _ else _ : Engine _) _ = _
  rw [if_pos hok, Engine.run_bind_of_ret run_erase]
  rfl

/-- One that is not created has none. -/
theorem run_createCollection_of_not_ok {status : Status} {e' : StorageEngine}
    (h : e.createCollection r.head name = (.ok status, e')) (hok : status.ok = false) :
    (db.createCollection name).run (.refusing e r) = (.ret (status, db), .refusing e' r.tail) := by
  rw [Database.createCollection, Engine.createCollection, bind_assoc, Engine.run_call_bind_refusing]
  simp only [StorageEngine.exec, h]
  change Engine.run (if status.ok then _ else _ : Engine _) _ = _
  rw [hok]
  rfl

/-- A collection is created on an open database only. -/
theorem run_createCollection_of_error {exn : Exn} {e' : StorageEngine}
    (h : e.createCollection r.head name = (.error exn, e')) :
    (db.createCollection name).run (.refusing e r) = (.raise exn, .refusing e' r.tail) := by
  rw [Database.createCollection, Engine.createCollection, bind_assoc, Engine.run_call_bind_refusing]
  simp only [StorageEngine.exec, h]
  rfl

/-- What is in the cache is given out. -/
theorem run_getCollection_of_cached {c : Collection} (hfind : db.find name = some c) :
    (db.getCollection name).run (.refusing e r) = (.ret (some c, db), .refusing e r) := by
  simp only [getCollection, hfind]
  rfl

theorem find_eq_none_iff : db.find name = none ↔ ∀ c ∈ db.collections_, c.name_ ≠ name := by
  rw [find, List.find?_eq_none]
  exact forall₂_congr fun c _ => by simp

theorem exists_of_find {c : Collection} (h : db.find name = some c) :
    c ∈ db.collections_ ∧ c.name_ = name :=
  ⟨List.mem_of_find?_eq_some h, by simpa using List.find?_some h⟩

theorem mem_replaced {c : Collection} : c ∈ (db.replaced name).collections_ ↔
    c = ⟨name⟩ ∨ c ∈ db.collections_ ∧ c.name_ ≠ name := by
  simp [replaced, erased]

/-! ### What a drop leaves of the families -/

/-- The families that are no indexes of the name are there as they were. -/
theorem contents_stripped {n : Bytes} (hn : ∀ f, n ≠ indexFamily name f) :
    (db.stripped e r name).contents n = e.contents n := by
  rw [stripped, StorageEngine.contents_dropIndexes hn, evicted]
  rcases db.find name with _ | c
  · rfl
  · exact StorageEngine.contents_dropIndexes hn

/-- **The indexes that are left** are those whose drops are refused, of the destructor and after
it. -/
theorem getIndexNames_stripped : (db.stripped e r name).getIndexNames name =
    refused (db.indexRefusals e r name) (db.left e r name) := by
  rw [stripped, ← getIndexNames_evicted, StorageEngine.getIndexNames_dropIndexes]

/-- Where the indexes of a name are not listed, no drop of one is tried. -/
theorem left_of_not_separable (hname : ¬Separable name) :
    db.left e r name = [] ∧ e.getIndexNames name = [] := by
  have hnone : e.getIndexNames name = [] := by
    rw [List.eq_nil_iff_forall_not_mem]
    intro f hf
    exact hname (StorageEngine.mem_getIndexNames.mp hf).2
  refine ⟨?_, hnone⟩
  rw [left, hnone]
  cases db.find name <;> rfl

theorem evicted_of_not_separable (hname : ¬Separable name) : db.evicted e r name = e := by
  obtain ⟨hleft, hnone⟩ := @left_of_not_separable db e r name hname
  exact evicted_of_left (hleft.trans hnone.symm)

theorem stripped_of_not_separable (hname : ¬Separable name) : db.stripped e r name = e := by
  rw [stripped, (left_of_not_separable hname).1, evicted_of_not_separable hname]
  rfl

/-- An index family that is there is there afterwards if its drop is refused, or not tried. -/
theorem mem_stripped_indexFamily {f : Bytes} (hf : indexFamily name f ∈ e.columnFamilies_) :
    indexFamily name f ∈ (db.stripped e r name).columnFamilies_ ↔
      (f ∈ e.getIndexNames name →
        f ∈ refused (db.indexRefusals e r name) (db.left e r name)) := by
  by_cases hname : Separable name
  · rw [← getIndexNames_stripped, StorageEngine.mem_getIndexNames, StorageEngine.mem_getIndexNames]
    simp [hf, hname]
  · rw [stripped_of_not_separable hname]
    refine iff_of_true hf fun hlisted => ?_
    exact absurd (StorageEngine.mem_getIndexNames.mp hlisted).2 hname

end Database

/-! ### The agreement -/

/-- The calls that open a database, and manage its collections. -/
def SessionCall.IsManagement : SessionCall → Prop
  | .close => False
  | .collection .. => False
  | _ => True

namespace Session

variable {codec : Codec} {s s' : Session}

/-- **`getCollection` gives an object exactly if there is a family of the name**, whatever
RocksDB refuses. -/
def CacheAgrees (s : Session) : Prop :=
  ∀ name r, ∃ col db' w', (s.database.getCollection name).run (.refusing s.engine r) =
    (.ret (col, db'), w') ∧ (col.isSome = true ↔ name ∈ s.engine.columnFamilies_)

/-- **The condition on a call.** A drop that goes through is one of a family that has no object
in the cache: RocksDB refuses to drop the family of the collection itself, and that of every
index with an object in the cache. -/
def KeepsCached (s : Session) (x : Event) : Prop :=
  match x.call with
  | .dropCollection name =>
    s.database.FamilyRefused s.engine x.refusals name ∧
      ∀ f ∈ s.engine.getIndexNames name, ⟨indexFamily name f⟩ ∈ s.database.collections_ →
        f ∈ refused (s.database.indexRefusals s.engine x.refusals name)
          (s.database.left s.engine x.refusals name)
  | _ => True

/-- The agreement, in terms of the cache. -/
theorem cacheAgrees_iff :
    s.CacheAgrees ↔ ∀ c ∈ s.database.collections_, c.name_ ∈ s.engine.columnFamilies_ := by
  constructor
  · intro h c hc
    rcases hfind : s.database.find c.name_ with _ | c'
    · exact absurd rfl (Database.find_eq_none_iff.mp hfind c hc)
    · obtain ⟨col, db', w', hrun, hiff⟩ := h c.name_ (Stream'.const none)
      rw [Database.run_getCollection_of_cached hfind] at hrun
      obtain ⟨rfl, -⟩ := Prod.mk.inj (Outcome.ret.inj (Prod.mk.inj hrun).1)
      exact hiff.mp rfl
  · intro h name r
    rcases hfind : s.database.find name with _ | c
    · have hrun := Database.run_getCollection (e := s.engine) (r := r) hfind
      split_ifs at hrun with hname
      · exact ⟨_, _, _, hrun, iff_of_true rfl hname⟩
      · exact ⟨_, _, _, hrun, iff_of_false (by simp) hname⟩
    · obtain ⟨hc, rfl⟩ := Database.exists_of_find hfind
      exact ⟨_, _, _, Database.run_getCollection_of_cached hfind, iff_of_true rfl (h c hc)⟩

/-! ### The steps -/

section Steps

variable {r : Stream' (Option Bytes)} {name : Bytes}

theorem Does.of_open (h : s.Does codec ⟨.open, r⟩ s') :
    s' = ⟨{ s.database with isDbOpen_ := true }, (s.engine.open r.head).2⟩ :=
  h.eq_of_ret (Engine.run_snd Database.run_open)

/-- **A collection is created**, or nothing happens. -/
theorem Does.of_createCollection (h : s.Does codec ⟨.createCollection name, r⟩ s') :
    s' = s ∨ ∃ e', e' = s.engine.withFamilies (s.engine.columnFamilies_.insert name ∅) ∧
      name ∉ s.engine.columnFamilies_ ∧ s.engine.db_ = .opened ∧
      s' = ⟨s.database.replaced name, s.database.evicted e' r.tail name⟩ := by
  rcases s.engine.createCollection_cases r.head name with
    ⟨hc, -, -⟩ | ⟨status, hc, hok, -⟩ | ⟨hc, hname, hdb, -⟩
  · have hrun := @Database.run_createCollection_of_error s.database _ _ _ _ _ hc
    exact absurd (congrArg Prod.fst (Engine.run_snd hrun)) h.ne_undefined
  · have hrun := @Database.run_createCollection_of_not_ok s.database _ _ _ _ _ hc hok
    exact Or.inl (h.eq_of_ret (Engine.run_snd hrun))
  · have hrun := @Database.run_createCollection s.database _ _ _ _ _ hc rfl
    exact Or.inr ⟨_, rfl, hname, hdb, h.eq_of_ret (Engine.run_snd hrun)⟩

/-- **A collection is dropped** where there is a family of the name; nothing else returns. -/
theorem Does.of_dropCollection (h : s.Does codec ⟨.dropCollection name, r⟩ s') :
    name ∈ s.engine.columnFamilies_ ∧
      s' = ⟨s.database.replaced name, ((s.database.stripped s.engine r name).dropCollection
        (s.database.lastRefusal s.engine r name) name).2⟩ := by
  by_cases hname : name ∈ s.engine.columnFamilies_
  · have hrun := @Database.run_dropCollection_of_mem s.database _ r _ hname
    exact ⟨hname, h.eq_of_ret (Engine.run_snd hrun)⟩
  · have hraise := @Database.run_dropCollection_of_notMem s.database _ r _ hname
    refine absurd ?_ (h.ne_undefined (u := .nullCollection))
    exact congrArg Prod.fst (Engine.run_snd (Prod.ext hraise rfl))

/-- **An object is obtained**: an object of the name is in the cache, or one comes into it, or
there is no family of the name. -/
theorem Does.of_getCollection (h : s.Does codec ⟨.getCollection name, r⟩ s') :
    s' = s ∨ name ∈ s.engine.columnFamilies_ ∧ s.database.find name = none ∧
      s' = ⟨{ s.database with collections_ := ⟨name⟩ :: s.database.collections_ }, s.engine⟩ := by
  rcases hfind : s.database.find name with _ | c
  · have hrun := Database.run_getCollection (e := s.engine) (r := r) hfind
    split_ifs at hrun with hname
    · exact Or.inr ⟨hname, rfl, h.eq_of_ret (Engine.run_snd hrun)⟩
    · exact Or.inl (h.eq_of_ret (Engine.run_snd hrun))
  · exact Or.inl (h.eq_of_ret (Engine.run_snd (Database.run_getCollection_of_cached hfind)))

/-- Opening keeps the agreement: where the families change, no object is in the cache. -/
theorem CacheAgrees.open (hs : s.CacheAgrees) (fault : Option Bytes) :
    (⟨{ s.database with isDbOpen_ := true }, (s.engine.open fault).2⟩ : Session).CacheAgrees := by
  rw [cacheAgrees_iff] at hs ⊢
  intro c hc
  have hmem := hs c hc
  by_cases hdb : s.engine.db_ = .opened
  · have hsame : (s.engine.open fault).2 = s.engine := by
      cases fault with
      | some text => rfl
      | none => simp only [StorageEngine.open, if_pos hdb]
    rwa [hsame]
  · rw [s.engine.families_eq_empty hdb] at hmem
    exact absurd hmem Std.ExtTreeMap.not_mem_empty

/-- Creating a collection keeps the agreement: no object is in the cache that would be
destroyed. -/
theorem CacheAgrees.create (hs : s.CacheAgrees) (hname : name ∉ s.engine.columnFamilies_)
    (hdb : s.engine.db_ = .opened) : (⟨s.database.replaced name, s.database.evicted
      (s.engine.withFamilies (s.engine.columnFamilies_.insert name ∅)) r name⟩ :
        Session).CacheAgrees := by
  rw [cacheAgrees_iff] at hs ⊢
  have hfind : s.database.find name = none :=
    Database.find_eq_none_iff.mpr fun c hc heq => hname (heq ▸ hs c hc)
  intro c hc
  rw [Database.evicted, hfind, StorageEngine.columnFamilies_withFamilies hdb,
    Std.ExtTreeMap.mem_insert, Std.LawfulEqCmp.compare_eq_iff_eq]
  rcases Database.mem_replaced.mp hc with rfl | ⟨hc, -⟩
  · exact Or.inl rfl
  · exact Or.inr (hs c hc)

theorem CacheAgrees.get (hs : s.CacheAgrees) (hname : name ∈ s.engine.columnFamilies_) :
    (⟨{ s.database with collections_ := ⟨name⟩ :: s.database.collections_ }, s.engine⟩ :
      Session).CacheAgrees := by
  rw [cacheAgrees_iff] at hs ⊢
  intro c hc
  rcases List.mem_cons.mp hc with rfl | hc
  · exact hname
  · exact hs c hc

/-- **A drop keeps the agreement** exactly if it drops no family with an object in the cache.
The object of the name itself is in the cache when its family is dropped. -/
theorem CacheAgrees.drop_iff (hs : s.CacheAgrees) (hname : name ∈ s.engine.columnFamilies_) :
    (⟨s.database.replaced name, ((s.database.stripped s.engine r name).dropCollection
      (s.database.lastRefusal s.engine r name) name).2⟩ : Session).CacheAgrees ↔
      s.KeepsCached ⟨.dropCollection name, r⟩ := by
  rw [cacheAgrees_iff] at hs ⊢
  by_cases hrefused : s.database.FamilyRefused s.engine r name
  · rw [(Database.dropCollection_of_refused hname hrefused).2]
    have hindex {f : Bytes} (hc : ⟨indexFamily name f⟩ ∈ s.database.collections_) :=
      @Database.mem_stripped_indexFamily s.database s.engine r name f (hs _ hc)
    constructor
    · refine fun h => ⟨hrefused, fun f hf hc => (hindex hc).mp ?_ hf⟩
      exact h _ (Database.mem_replaced.mpr (Or.inr ⟨hc, indexFamily_ne name f⟩))
    · rintro ⟨-, hkept⟩ c hc
      rcases Database.mem_replaced.mp hc with rfl | ⟨hc, -⟩
      · exact Database.mem_stripped.mpr hname
      by_cases hfamily : ∃ f, c.name_ = indexFamily name f
      · obtain ⟨f, hf⟩ := hfamily
        obtain rfl : c = ⟨indexFamily name f⟩ := congrArg Collection.mk hf
        exact (hindex hc).mpr fun hlisted => hkept f hlisted hc
      · have hcontents := @Database.contents_stripped s.database s.engine r name c.name_
          fun f hf => hfamily ⟨f, hf⟩
        exact (StorageEngine.mem_congr hcontents).mpr (hs c hc)
  · refine iff_of_false (fun h => ?_) fun h => hrefused h.1
    -- what `getCollection` has put into the cache is there, and the family is not
    have hmem := h ⟨name⟩ (Database.mem_replaced.mpr (Or.inl rfl))
    obtain ⟨hdefault, hlast⟩ := not_or.mp hrefused
    rw [Option.not_isSome_iff_eq_none] at hlast
    have hstripped := @Database.mem_stripped s.database s.engine r name
    rw [hlast, StorageEngine.dropCollection_none (hstripped.mpr hname) hdefault] at hmem
    exact ((StorageEngine.mem_erase_family (hstripped.mpr hname)).mp hmem).1 rfl

/-- **A step keeps the agreement exactly under the condition.** -/
theorem CacheAgrees.step_iff {x : Event} (hs : s.CacheAgrees) (hcall : x.call.IsManagement)
    (h : s.Does codec x s') : s'.CacheAgrees ↔ s.KeepsCached x := by
  obtain ⟨call, r⟩ := x
  cases call with
  | «open» =>
    rw [h.of_open]
    exact iff_of_true (hs.open r.head) trivial
  | close => exact hcall.elim
  | createCollection name =>
    refine iff_of_true ?_ trivial
    rcases h.of_createCollection with rfl | ⟨e', rfl, hname, hdb, rfl⟩
    · exact hs
    · exact hs.create hname hdb
  | dropCollection name =>
    obtain ⟨hname, rfl⟩ := h.of_dropCollection
    exact hs.drop_iff hname
  | getCollection name =>
    refine iff_of_true ?_ trivial
    rcases h.of_getCollection with rfl | ⟨hname, -, rfl⟩
    · exact hs
    · exact hs.get hname
  | collection c call => exact hcall.elim

end Steps

/-- A step that manages collections. -/
def Manages (codec : Codec) (s : Session) (x : Event) (s' : Session) : Prop :=
  x.call.IsManagement ∧ s.Does codec x s'

/-- **The cache agrees with the engine** in every state of a run in which all drops keep to the
condition; and it does so in all of them only if they do. -/
theorem cacheAgrees_of_keepsCached {history : List Event} :
    (History.Run (History.Meeting KeepsCached (Manages codec)) .new history s → s.CacheAgrees) ∧
    (History.Run (History.Into CacheAgrees (Manages codec)) .new history s ↔
      History.Run (History.Meeting KeepsCached (Manages codec)) .new history s) := by
  have hstart : Session.new.CacheAgrees :=
    cacheAgrees_iff.mpr fun c hc => absurd hc List.not_mem_nil
  have hiff := @History.Run.into_iff_meeting _ _ (Manages codec) .new s history CacheAgrees
    KeepsCached hstart fun hs h => hs.step_iff h.1 h.2
  exact ⟨fun h => (hiff.mpr h).of_into hstart, hiff⟩

/-- A collection is created, and RocksDB refuses to drop it. -/
def createdAndKept : List Event :=
  calmly [.open, .createCollection letterC.name_] ++
    [⟨.dropCollection letterC.name_, Stream'.const (some (Bytes.ofText "IO error"))⟩]

theorem cacheAgrees_createdAndKept :
    ∃ s, History.Run (Manages .standard) .new createdAndKept s ∧ s.CacheAgrees := by
  have hcreate : History.Run (History.Meeting KeepsCached (Manages .standard)) .new
      (calmly [.open, .createCollection letterC.name_])
      (Session.new.afterAll .standard [.open, .createCollection letterC.name_]) := by
    refine run_calmly .standard ?_ (by decide +kernel)
    intro call hcall s s' h
    rcases List.mem_pair.mp hcall with rfl | rfl <;> exact ⟨trivial, trivial, h⟩
  have hdrop : Session.Does .standard
      (Session.new.afterAll .standard [.open, .createCollection letterC.name_])
      ⟨.dropCollection letterC.name_, Stream'.const (some (Bytes.ofText "IO error"))⟩ ⟨_, _⟩ :=
    ⟨by simp, _, _, rfl, rfl, Or.inl rfl⟩
  have hkeeps : (Session.new.afterAll .standard [.open, .createCollection letterC.name_]).KeepsCached
      ⟨.dropCollection letterC.name_, Stream'.const (some (Bytes.ofText "IO error"))⟩ := by
    refine ⟨Or.inr (by decide +kernel), fun f hf => ?_⟩
    have hnone : (Session.new.afterAll .standard
        [.open, .createCollection letterC.name_]).engine.getIndexNames letterC.name_ = [] := by
      decide +kernel
    rw [hnone] at hf
    exact absurd hf List.not_mem_nil
  have hrun := hcreate.snoc ⟨hkeeps, trivial, hdrop⟩
  exact ⟨_, hrun.of_meeting, cacheAgrees_of_keepsCached.1 hrun⟩

/-- **A collection that has been dropped is still given out.** -/
theorem not_cacheAgrees_of_drop :
    ∃ s, History.Run (Manages .standard) .new
      (calmly [.open, .createCollection letterC.name_, .dropCollection letterC.name_]) s ∧
      ¬s.CacheAgrees := by
  refine ⟨_, run_calmly .standard ?_ (by decide +kernel), fun h => ?_⟩
  · intro call hcall s s' h
    simp only [List.mem_cons, List.not_mem_nil, or_false] at hcall
    rcases hcall with rfl | rfl | rfl <;> exact ⟨trivial, h⟩
  · exact absurd (cacheAgrees_iff.mp h letterC (by decide +kernel)) (by decide +kernel)

end Session

end AnuDB
