import AnuDB.Cache
import AnuDB.Names

/-!
# Are the listings exact?

What a user expects to be listed can be written down by what the calls report: a `Ledger` of
the collections that are there and of the fields each has an index on. The listings are exact
if they agree with the ledger (`AnuDB.Booked.Exact`).

They are read off the names of the families, and the families are made and dropped by name. A
step keeps the agreement exactly if it is orderly (`AnuDB.Booked.Exact.step_iff`): the name of
a collection has no delimiter in it, and its indexes are listed under it; no index is left over
from an older collection of the name; a family that an index is made of is really made, which
`createIndex` does not look at; and RocksDB does not refuse one drop of several.
-/

namespace AnuDB

open Effect

/-! ### The ledger -/

/-- **What there is**, by what the calls have reported. -/
structure Ledger where
  /-- The collections that have been created, and not dropped since. -/
  created : Set Bytes
  /-- The fields of which an index of a collection has been created, and not deleted since. -/
  indexed : Bytes → Set Bytes

/-- Nothing has been created. -/
def Ledger.empty : Ledger := ⟨∅, fun _ => ∅⟩

/-- What a call that reports OK changes. A collection that is created has no index. -/
def Ledger.next (l : Ledger) : SessionCall → Ledger
  | .createCollection name => ⟨insert name l.created, Function.update l.indexed name ∅⟩
  | .dropCollection name => ⟨l.created \ {name}, l.indexed⟩
  | .collection c (.createIndex f) =>
    ⟨l.created, Function.update l.indexed c.name_ (insert f (l.indexed c.name_))⟩
  | .collection c (.deleteIndex f) =>
    ⟨l.created, Function.update l.indexed c.name_ (l.indexed c.name_ \ {f})⟩
  | _ => l

/-- The calls that make and drop collections and indexes. -/
def SessionCall.IsArrangement : SessionCall → Prop
  | .createCollection _ => True
  | .dropCollection _ => True
  | .getCollection _ => True
  | .collection _ (.createIndex _) => True
  | .collection _ (.deleteIndex _) => True
  | _ => False

/-- What a run returns, if it returns. -/
def Outcome.status? {α : Type} (f : α → Status) : Outcome Exn α → Option Status
  | .ret a => some (f a)
  | _ => none

/-- The status a call reports, if it reports one. -/
def Session.status (codec : Codec) (s : Session) (x : Event) : Option Status :=
  match x.call with
  | .createCollection name => Outcome.status? Prod.fst
      ((s.database.createCollection name).run (.refusing s.engine x.refusals)).1
  | .dropCollection name => Outcome.status? Prod.fst
      ((s.database.dropCollection name).run (.refusing s.engine x.refusals)).1
  | .collection c call => Outcome.status? id
      (((call.operation c).perform codec).run (.refusing s.engine x.refusals)).1
  | _ => none

/-- **A session with its ledger.** -/
structure Booked where
  /-- The session. -/
  session : Session
  /-- The ledger. -/
  ledger : Ledger

namespace Booked

/-- A new database that has been opened. -/
def opened : Booked := ⟨⟨⟨true, []⟩, .fresh⟩, .empty⟩

/-- **A step**: what is reported OK goes into the ledger. -/
def Step (codec : Codec) (b : Booked) (x : Event) (b' : Booked) : Prop :=
  x.call.IsArrangement ∧ b.session.Does codec x b'.session ∧
    b'.ledger = if (b.session.status codec x).any Status.ok then b.ledger.next x.call else b.ledger

/-- **The listings are exact.** -/
def Exact (b : Booked) : Prop :=
  (∀ n, n ∈ b.session.engine.getCollectionNames ↔ n ∈ b.ledger.created) ∧
    ∀ c ∈ b.ledger.created, ∀ f, f ∈ b.session.engine.getIndexNames c ↔ f ∈ b.ledger.indexed c

end Booked

/-- **The condition on a step**, in the state it is made in. -/
def Session.Orderly (s : Session) (x : Event) : Prop :=
  match x.call with
  | .createCollection name =>
    name ∉ s.engine.columnFamilies_ → x.refusals.head = none →
      ¬index_delimiter_ <:+: name ∧ s.database.left s.engine x.refusals.tail name = []
  | .dropCollection name =>
    (s.database.FamilyRefused s.engine x.refusals name → name ∈ s.engine.getCollectionNames →
      s.database.IndexesRefused s.engine x.refusals name) ∧
    (¬s.database.FamilyRefused s.engine x.refusals name →
      ∀ a g, StorageEngine.splitIndexName name = some (a, g) → a ∉ s.engine.getCollectionNames)
  | .collection c (.createIndex f) =>
    if c.name_ ∈ s.engine.getCollectionNames then
      Separable c.name_ ∧
        (c.getIndexCfName f ∈ s.engine.columnFamilies_ ∨ x.refusals.head = none)
    else
      c.getIndexCfName f ∈ s.engine.columnFamilies_ ∨ x.refusals.head ≠ none ∨
        owner c.name_ ∉ s.engine.getCollectionNames
  | .collection c (.deleteIndex f) =>
    c.getIndexCfName f ∈ s.engine.columnFamilies_ → x.refusals.head = none →
      Separable c.name_ ∨ owner c.name_ ∉ s.engine.getCollectionNames
  | _ => True

/-! ### What is listed when families come and go -/

namespace StorageEngine

variable {e e' : StorageEngine} {c f n name : Bytes} {r : Stream' (Option Bytes)}
  {indexes : List Bytes}

theorem mem_getCollectionNames : n ∈ e.getCollectionNames ↔
    n ∈ e.columnFamilies_ ∧ n ≠ kDefaultColumnFamilyName ∧ ¬index_delimiter_ <:+: n := by
  rw [getCollectionNames, List.mem_filter, Std.ExtTreeMap.mem_keys, Bool.and_eq_true, bne_iff_ne,
    Option.isNone_iff_eq_none, Bytes.find_eq_none_iff]

/-- A family that comes is listed as a collection, or as an index. -/
theorem mem_getCollectionNames_insert (hdb : e.db_ = .opened) :
    n ∈ (e.withFamilies (e.columnFamilies_.insert name ∅)).getCollectionNames ↔
      (n = name ∧ n ≠ kDefaultColumnFamilyName ∧ ¬index_delimiter_ <:+: n) ∨
        n ∈ e.getCollectionNames := by
  rw [mem_getCollectionNames, mem_getCollectionNames, mem_insert_empty hdb, or_and_right, eq_comm]

theorem mem_getIndexNames_insert (hdb : e.db_ = .opened) :
    f ∈ (e.withFamilies (e.columnFamilies_.insert name ∅)).getIndexNames c ↔
      (indexFamily c f = name ∧ Separable c) ∨ f ∈ e.getIndexNames c := by
  rw [mem_getIndexNames, mem_getIndexNames, mem_insert_empty hdb, or_and_right]

/-- A family that goes is not listed any more. -/
theorem mem_getCollectionNames_erase (hname : name ∈ e.columnFamilies_) :
    n ∈ (e.withFamilies (e.columnFamilies_.erase name)).getCollectionNames ↔
      n ≠ name ∧ n ∈ e.getCollectionNames := by
  rw [mem_getCollectionNames, mem_getCollectionNames, mem_erase_family hname, and_assoc]

theorem mem_getIndexNames_erase_family (hname : name ∈ e.columnFamilies_) :
    f ∈ (e.withFamilies (e.columnFamilies_.erase name)).getIndexNames c ↔
      indexFamily c f ≠ name ∧ f ∈ e.getIndexNames c := by
  rw [mem_getIndexNames, mem_getIndexNames, mem_erase_family hname, and_assoc]

/-- Dropping the indexes of one collection leaves the list of another alone. -/
theorem mem_getIndexNames_dropIndexes_of_ne (hne : c ≠ name) (hname : Separable name) :
    f ∈ (e.dropIndexes name r indexes).getIndexNames c ↔ f ∈ e.getIndexNames c := by
  rw [mem_getIndexNames, mem_getIndexNames]
  refine and_congr_left fun hc => mem_congr (contents_dropIndexes fun g hg => hne ?_)
  exact (owner_eq_of_indexFamily_eq hc hg.symm).symm.trans hname

theorem mem_getCollectionNames_congr (h : ∀ n, ¬index_delimiter_ <:+: n →
    (n ∈ e.columnFamilies_ ↔ n ∈ e'.columnFamilies_)) :
    n ∈ e.getCollectionNames ↔ n ∈ e'.getCollectionNames := by
  rw [mem_getCollectionNames, mem_getCollectionNames]
  exact and_congr_left fun hn => h n hn.2

end StorageEngine

namespace Database

variable {db : Database} {e : StorageEngine} {r : Stream' (Option Bytes)} {name n c f : Bytes}

/-- The names of collections are not those of indexes that are dropped. -/
theorem mem_getCollectionNames_evicted :
    n ∈ (db.evicted e r name).getCollectionNames ↔ n ∈ e.getCollectionNames := by
  refine StorageEngine.mem_getCollectionNames_congr fun n hn => ?_
  rw [evicted]
  rcases db.find name with _ | c
  · exact Iff.rfl
  · refine StorageEngine.mem_congr (StorageEngine.contents_dropIndexes ?_)
    rintro f rfl
    exact hn (delimiter_infix_indexFamily name f)

theorem mem_getCollectionNames_stripped :
    n ∈ (db.stripped e r name).getCollectionNames ↔ n ∈ e.getCollectionNames := by
  refine StorageEngine.mem_getCollectionNames_congr fun n hn => ?_
  refine StorageEngine.mem_congr (contents_stripped ?_)
  rintro f rfl
  exact hn (delimiter_infix_indexFamily name f)

theorem mem_getIndexNames_evicted_of_ne (hne : c ≠ name) :
    f ∈ (db.evicted e r name).getIndexNames c ↔ f ∈ e.getIndexNames c := by
  by_cases hname : Separable name
  · rw [evicted]
    rcases db.find name with _ | c'
    · exact Iff.rfl
    · exact StorageEngine.mem_getIndexNames_dropIndexes_of_ne hne hname
  · rw [evicted_of_not_separable hname]

theorem mem_getIndexNames_stripped_of_ne (hne : c ≠ name) :
    f ∈ (db.stripped e r name).getIndexNames c ↔ f ∈ e.getIndexNames c := by
  by_cases hname : Separable name
  · rw [stripped, StorageEngine.mem_getIndexNames_dropIndexes_of_ne hne hname,
      mem_getIndexNames_evicted_of_ne hne]
  · rw [stripped_of_not_separable hname]

end Database

/-! ### Databases without documents -/

/-- **No document has been stored**: the database is open, and its families are empty. -/
structure StorageEngine.Bare (e : StorageEngine) : Prop where
  /-- The database is open. -/
  opened : e.db_ = .opened
  /-- RocksDB's default family is there. -/
  rooted : e.Rooted
  /-- The families are empty. -/
  empty : ∀ n cf, e.contents n = some cf → cf = ∅

/-- The calls that make, drop and look up families. -/
def Call.Arranges : Call → Prop
  | .createCollection _ => True
  | .dropCollection _ => True
  | .collectionExists _ => True
  | .getIndexNames _ => True
  | _ => False

namespace StorageEngine.Bare

variable {e : StorageEngine}

theorem insert (h : e.Bare) (n : Bytes) : (e.withFamilies (e.columnFamilies_.insert n ∅)).Bare := by
  refine ⟨db_withFamilies.trans h.opened, h.rooted.insert n ∅, fun m cf hcf => ?_⟩
  by_cases hm : n = m
  · subst hm
    rw [contents, columnFamilies_withFamilies h.opened, Std.ExtTreeMap.getElem?_insert_self] at hcf
    exact (Option.some.inj hcf).symm
  · exact h.empty m cf (contents_insert hm ▸ hcf)

theorem erase (h : e.Bare) {n : Bytes} (hdefault : n ≠ kDefaultColumnFamilyName) :
    (e.withFamilies (e.columnFamilies_.erase n)).Bare := by
  refine ⟨db_withFamilies.trans h.opened, h.rooted.withFamilies fun hm => ?_, fun m cf hcf => ?_⟩
  · exact Std.ExtTreeMap.mem_erase.mpr
      ⟨fun heq => hdefault (Std.LawfulEqCmp.eq_of_compare heq), hm⟩
  · by_cases hm : n = m
    · subst hm
      rw [contents, columnFamilies_withFamilies h.opened, Std.ExtTreeMap.getElem?_erase_self] at hcf
      simp at hcf
    · exact h.empty m cf (contents_erase hm ▸ hcf)

/-- Making and dropping families keeps them empty. -/
theorem exec (h : e.Bare) {x : Call} (hx : x.Arranges) (fault : Option Bytes) :
    (e.exec fault x).2.Bare := by
  cases x with
  | createCollection n =>
    rcases e.createCollection_cases fault n with ⟨hc, -⟩ | ⟨status, hc, -⟩ | ⟨hc, -⟩
    · rwa [StorageEngine.exec, hc]
    · rwa [StorageEngine.exec, hc]
    · rw [StorageEngine.exec, hc]
      exact h.insert n
  | dropCollection n =>
    simp only [StorageEngine.exec, StorageEngine.dropCollection]
    split_ifs with hn hdefault
    · exact h
    · cases fault with
      | some text => exact h
      | none => exact h.erase hdefault
    · exact h
  | collectionExists n => exact h
  | getIndexNames c => exact h
  | _ => exact hx.elim

theorem run {α : Type} {p : Engine α} (hp : p.Uses Call.Arranges) {w : World}
    (h : w.engine.Bare) : (p.run w).2.engine.Bare := by
  refine Prog.run_of_uses (I := fun w w' => w.engine.Bare → w'.engine.Bare) (fun _ h => h) ?_ ?_
    hp w h
  · exact fun hst htu hs => htu (hst hs)
  · intro x s reply s' hx hhandle hs
    obtain ⟨fault, hexec, -⟩ := World.exists_fault_of_handle hhandle
    have hbare := hs.exec hx fault
    rwa [hexec] at hbare

end StorageEngine.Bare

namespace Database

variable {db : Database} {name : Bytes}

theorem arranges_deleteIndexes {c : Collection} (indexes : List Bytes) :
    (c.deleteIndexes indexes).Uses Call.Arranges := by
  induction indexes with
  | nil => trivial
  | cons index indexes ih => exact Prog.Uses.bind (Prog.uses_perform.mpr trivial) fun _ => ih

theorem arranges_erase : (db.erase name).Uses Call.Arranges := by
  rw [erase]
  rcases db.find name with _ | c
  · trivial
  · refine Prog.Uses.bind (Prog.Uses.bind (Prog.uses_perform.mpr trivial) fun indexes =>
      arranges_deleteIndexes indexes) fun _ => trivial

theorem arranges_getCollection : (db.getCollection name).Uses Call.Arranges := by
  rw [getCollection]
  rcases db.find name with _ | c
  · refine Prog.Uses.bind (Prog.uses_perform.mpr trivial) fun found => ?_
    split_ifs <;> trivial
  · trivial

theorem arranges_createCollection : (db.createCollection name).Uses Call.Arranges := by
  refine Prog.Uses.bind (Prog.Uses.bind (Prog.uses_perform.mpr trivial) fun r =>
    Prog.uses_ofExcept r) fun status => ?_
  split_ifs
  · exact Prog.Uses.bind arranges_erase fun db => trivial
  · trivial

theorem arranges_dropCollection : (db.dropCollection name).Uses Call.Arranges := by
  refine Prog.Uses.bind arranges_erase fun db => Prog.Uses.bind arranges_getCollection fun found => ?_
  obtain ⟨_ | col, db⟩ := found
  · exact Prog.uses_raise _
  · refine Prog.Uses.bind (Prog.uses_perform.mpr trivial) fun indexes => ?_
    refine Prog.Uses.bind (arranges_deleteIndexes indexes) fun _ => ?_
    exact Prog.Uses.bind (Prog.uses_perform.mpr trivial) fun status => trivial

end Database

/-- **The index of a collection without documents** is built of nothing, and that goes well,
whether there is a family for it or not. -/
theorem Collection.run_createIndex_of_bare {codec : Codec} {c : Collection} {e : StorageEngine}
    {r : Stream' (Option Bytes)} {f : Bytes} (h : e.Bare) :
    (c.createIndex codec none f).run (.refusing e r) = (.ret .OK,
      .refusing (e.createCollection r.head (c.getIndexCfName f)).2 r.tail.tail) := by
  have hempty {e' : StorageEngine} (hbare : e'.Bare) : e'.cursor c.name_ = [] := by
    rw [StorageEngine.cursor]
    rcases hcf : e'.columnFamilies_[c.name_]? with _ | cf
    · rfl
    · rw [hbare.empty c.name_ cf hcf]
      rfl
  have hbuild {e' : StorageEngine} (hbare : e'.Bare) :
      Prog.run World.handle (Prog.tryCatch (c.buildIndex codec none f)
        fun exn => Prog.ofExcept (corruptionOf exn)) (.refusing e' r.tail) =
        (.ret .OK, .refusing e' r.tail.tail) := by
    have hrun : (c.buildIndex codec none f).run (.refusing e' r.tail) =
        (.ret .OK, .refusing e' r.tail.tail) := by
      rw [buildIndex, Engine.cursor, Engine.run_call_bind_refusing]
      simp only [StorageEngine.exec, StorageEngine.walk, hempty hbare]
      rfl
    rw [Engine.run] at hrun
    rw [Prog.run_tryCatch, hrun]
  rw [createIndex, Engine.createCollection, bind_assoc, Engine.run_call_bind_refusing]
  rcases e.createCollection_cases r.head (c.getIndexCfName f) with
    ⟨-, -, hdb⟩ | ⟨status, hc, -⟩ | ⟨hc, -⟩
  · exact absurd h.opened hdb
  · simp only [StorageEngine.exec, hc]
    exact hbuild h
  · simp only [StorageEngine.exec, hc]
    exact hbuild (h.insert _)

/-! ### The steps -/

namespace Booked

variable {codec : Codec} {b b' : Booked} {r : Stream' (Option Bytes)} {name : Bytes}
  {c : Collection} {f : Bytes}

/-- A call that reports a status, and what it leaves of the database. -/
theorem Step.eq_of_ret {x : Event} (h : b.Step codec x b') (status : Status) {db' : Database}
    {w' : World} (hrun : (x.call.perform codec b.session.database).run
      (.refusing b.session.engine x.refusals) = (.ret db', w'))
    (hstatus : b.session.status codec x = some status) :
    b' = ⟨⟨db', w'.engine⟩, if status.ok then b.ledger.next x.call else b.ledger⟩ := by
  obtain ⟨-, hdoes, hledger⟩ := h
  rw [hstatus, Option.any_some] at hledger
  rw [← hledger, ← hdoes.eq_of_ret hrun]

/-- **A collection is created** and goes into the ledger, or nothing happens. -/
theorem Step.of_createCollection (h : b.Step codec ⟨.createCollection name, r⟩ b') :
    (b' = b ∧ (name ∈ b.session.engine.columnFamilies_ ∨ r.head.isSome = true)) ∨
    (name ∉ b.session.engine.columnFamilies_ ∧ b.session.engine.db_ = .opened ∧ r.head = none ∧
      b' = ⟨⟨b.session.database.replaced name, b.session.database.evicted
        (b.session.engine.withFamilies (b.session.engine.columnFamilies_.insert name ∅)) r.tail
          name⟩, b.ledger.next (.createCollection name)⟩) := by
  rcases b.session.engine.createCollection_cases r.head name with
    ⟨hc, -, -⟩ | ⟨status, hc, hok, hwhy⟩ | ⟨hc, hname, hdb, hhead⟩
  · have hrun := @Database.run_createCollection_of_error b.session.database _ _ _ _ _ hc
    exact absurd (congrArg Prod.fst (Engine.run_snd hrun)) h.2.1.ne_undefined
  · have hrun := @Database.run_createCollection_of_not_ok b.session.database _ _ _ _ _ hc hok
    have hb' := h.eq_of_ret status (Engine.run_snd hrun)
      (by simp only [Session.status]; rw [hrun]; rfl)
    rw [hok] at hb'
    exact Or.inl ⟨hb', hwhy⟩
  · have hrun := @Database.run_createCollection b.session.database _ _ _ _ _ hc rfl
    have hb' := h.eq_of_ret .OK (Engine.run_snd hrun)
      (by simp only [Session.status]; rw [hrun]; rfl)
    exact Or.inr ⟨hname, hdb, hhead, hb'⟩

/-- **A collection is dropped** and leaves the ledger, or RocksDB refuses the last drop. -/
theorem Step.of_dropCollection (h : b.Step codec ⟨.dropCollection name, r⟩ b') :
    name ∈ b.session.engine.columnFamilies_ ∧
    (b.session.database.FamilyRefused b.session.engine r name →
      b' = ⟨⟨b.session.database.replaced name,
        b.session.database.stripped b.session.engine r name⟩, b.ledger⟩) ∧
    (¬b.session.database.FamilyRefused b.session.engine r name →
      b' = ⟨⟨b.session.database.replaced name,
        (b.session.database.stripped b.session.engine r name).withFamilies
          ((b.session.database.stripped b.session.engine r name).columnFamilies_.erase name)⟩,
        b.ledger.next (.dropCollection name)⟩) := by
  obtain ⟨hname, -⟩ := h.2.1.of_dropCollection
  have hrun := @Database.run_dropCollection_of_mem b.session.database _ r _ hname
  have hb' := h.eq_of_ret ((b.session.database.stripped b.session.engine r name
    ).dropCollection (b.session.database.lastRefusal b.session.engine r name) name).1
    (Engine.run_snd hrun) (by simp only [Session.status]; rw [hrun]; rfl)
  refine ⟨hname, fun hrefused => ?_, fun hrefused => ?_⟩
  · obtain ⟨hbad, hengine⟩ := Database.dropCollection_of_refused hname hrefused
    rw [hbad] at hb'
    rw [hb']
    exact congrArg (fun e => Booked.mk ⟨b.session.database.replaced name, e⟩ b.ledger) hengine
  · obtain ⟨hdefault, hlast⟩ := not_or.mp hrefused
    rw [Option.not_isSome_iff_eq_none] at hlast
    rw [hlast, StorageEngine.dropCollection_none (Database.mem_stripped.mpr hname) hdefault] at hb'
    rw [hb']
    rfl

/-- What a method of a collection reports, and the engine it leaves. -/
theorem Step.of_method {call : CollectionCall} (h : b.Step codec ⟨.collection c call, r⟩ b')
    {status : Status} {e' : StorageEngine} {r' : Stream' (Option Bytes)}
    (hrun : ((call.operation c).perform codec).run (.refusing b.session.engine r) =
      (.ret status, .refusing e' r')) :
    b' = ⟨⟨b.session.database, e'⟩,
      if status.ok then b.ledger.next (.collection c call) else b.ledger⟩ := by
  have hperform : (SessionCall.perform codec b.session.database (.collection c call)).run
      (.refusing b.session.engine r) = (.ret b.session.database, .refusing e' r') :=
    Engine.run_bind_of_ret hrun
  exact h.eq_of_ret _ hperform (by simp only [Session.status]; rw [hrun]; rfl)

/-- **An index is created** on a collection without documents: that is reported OK whether
there is a family for it or not. -/
theorem Step.of_createIndex (h : b.Step codec ⟨.collection c (.createIndex f), r⟩ b')
    (hbare : b.session.engine.Bare) :
    b' = ⟨⟨b.session.database,
      (b.session.engine.createCollection r.head (c.getIndexCfName f)).2⟩,
      b.ledger.next (.collection c (.createIndex f))⟩ :=
  h.of_method (Collection.run_createIndex_of_bare hbare)

/-- **An index is deleted**, or nothing happens. -/
theorem Step.of_deleteIndex (h : b.Step codec ⟨.collection c (.deleteIndex f), r⟩ b') :
    (b' = b ∧ (c.getIndexCfName f ∈ b.session.engine.columnFamilies_ → r.head ≠ none)) ∨
    (c.getIndexCfName f ∈ b.session.engine.columnFamilies_ ∧ r.head = none ∧
      b' = ⟨⟨b.session.database, b.session.engine.withFamilies
        (b.session.engine.columnFamilies_.erase (c.getIndexCfName f))⟩,
        b.ledger.next (.collection c (.deleteIndex f))⟩) := by
  have hdefault : c.getIndexCfName f ≠ kDefaultColumnFamilyName :=
    ne_default_of_delimited (delimiter_infix_indexFamily c.name_ f)
  have hrun : (((CollectionCall.deleteIndex f).operation c).perform codec).run
      (.refusing b.session.engine r) =
      (.ret (b.session.engine.dropCollection r.head (c.getIndexCfName f)).1,
        .refusing (b.session.engine.dropCollection r.head (c.getIndexCfName f)).2 r.tail) := by
    change (Engine.dropCollection (c.getIndexCfName f)).run _ = _
    rw [Engine.dropCollection, ← bind_pure (Prog.perform _), Engine.run_call_bind_refusing]
    rfl
  have hb' := h.of_method hrun
  by_cases hfamily : c.getIndexCfName f ∈ b.session.engine.columnFamilies_
  · rcases hhead : r.head with _ | text
    · rw [hhead, StorageEngine.dropCollection_none hfamily hdefault] at hb'
      exact Or.inr ⟨hfamily, rfl, hb'⟩
    · rw [hhead, StorageEngine.dropCollection_some] at hb'
      have hbad : (b.session.engine.dropCollection (some text) (c.getIndexCfName f)).1.ok = false := by
        simp only [StorageEngine.dropCollection, if_pos hfamily, if_neg hdefault]
        rfl
      rw [hbad] at hb'
      exact Or.inl ⟨hb', fun _ => by simp⟩
  · simp only [StorageEngine.dropCollection, if_neg hfamily] at hb'
    exact Or.inl ⟨hb', fun hmem => absurd hmem hfamily⟩

/-- Every step keeps the families empty. -/
theorem Step.bare {x : Event} (h : b.Step codec x b') (hbare : b.session.engine.Bare) :
    b'.session.engine.Bare := by
  obtain ⟨call, r⟩ := x
  have hkeeps (hp : (call.perform codec b.session.database).Uses Call.Arranges) :
      b'.session.engine.Bare := by
    obtain ⟨-, ⟨-, outcome, w', hrun, hengine, -⟩, -⟩ := h
    have hrunBare := StorageEngine.Bare.run hp (w := .refusing b.session.engine r) hbare
    rwa [hrun, hengine] at hrunBare
  cases call with
  | createCollection name =>
    exact hkeeps (Prog.Uses.bind Database.arranges_createCollection fun _ => trivial)
  | dropCollection name =>
    exact hkeeps (Prog.Uses.bind Database.arranges_dropCollection fun _ => trivial)
  | getCollection name =>
    exact hkeeps (Prog.Uses.bind Database.arranges_getCollection fun _ => trivial)
  | collection c call =>
    cases call with
    | createIndex f =>
      rw [h.of_createIndex hbare]
      exact hbare.exec (x := .createCollection (c.getIndexCfName f)) trivial r.head
    | deleteIndex f =>
      exact hkeeps (Prog.Uses.bind (Prog.uses_perform.mpr trivial) fun _ => trivial)
    | document call => exact h.1.elim
  | _ => exact h.1.elim

/-! ### Exactness -/

/-- **Creating a collection** keeps the listings exact if its name is no index's, and nothing is
left over of its indexes. -/
theorem Exact.create_iff (hb : b.Exact) (hbare : b.session.engine.Bare)
    (hname : name ∉ b.session.engine.columnFamilies_) :
    Exact ⟨⟨b.session.database.replaced name, b.session.database.evicted
      (b.session.engine.withFamilies (b.session.engine.columnFamilies_.insert name ∅)) r name⟩,
        b.ledger.next (.createCollection name)⟩ ↔
      ¬index_delimiter_ <:+: name ∧ b.session.database.left b.session.engine r name = [] := by
  obtain ⟨hcollections, hindexes⟩ := hb
  set e := b.session.engine
  set e₁ := e.withFamilies (e.columnFamilies_.insert name ∅) with he₁
  have hdefault : name ≠ kDefaultColumnFamilyName := by
    rintro rfl
    exact hname (hbare.rooted.1 hbare.opened)
  have hself : e₁.getIndexNames name = e.getIndexNames name := by
    refine StorageEngine.getIndexNames_eq_of_mem_iff (StorageEngine.pairwise_getIndexNames e name)
      fun g => ?_
    rw [StorageEngine.mem_getIndexNames_insert hbare.opened]
    exact or_iff_right fun h => indexFamily_ne name g h.1
  -- what is listed for the new collection is what the object before it has left
  have hleft : (b.session.database.evicted e₁ r name).getIndexNames name =
      b.session.database.left e r name := by
    rw [Database.getIndexNames_evicted, Database.left, Database.left, hself]
  constructor
  · rintro ⟨hnames, hlists⟩
    have hmem : name ∈ (b.session.database.evicted e₁ r name).getCollectionNames :=
      (hnames name).mpr (Set.mem_insert name _)
    refine ⟨(StorageEngine.mem_getCollectionNames.mp hmem).2.2, ?_⟩
    rw [← hleft, List.eq_nil_iff_forall_not_mem]
    intro f hf
    have hindexed := (hlists name (Set.mem_insert name _) f).mp hf
    simp [Ledger.next] at hindexed
  · rintro ⟨hdelimiter, hnone⟩
    refine ⟨fun n => ?_, fun a ha f => ?_⟩
    · rw [Database.mem_getCollectionNames_evicted,
        StorageEngine.mem_getCollectionNames_insert hbare.opened, hcollections n]
      constructor
      · rintro (⟨rfl, -⟩ | hn)
        · exact Set.mem_insert n _
        · exact Set.mem_insert_of_mem name hn
      · rintro (rfl | hn)
        · exact Or.inl ⟨rfl, hdefault, hdelimiter⟩
        · exact Or.inr hn
    · by_cases heq : a = name
      · subst heq
        rw [hleft, hnone]
        simp [Ledger.next]
      · have hcreated : a ∈ b.ledger.created := Set.mem_of_mem_insert_of_ne ha heq
        rw [Database.mem_getIndexNames_evicted_of_ne heq,
          StorageEngine.mem_getIndexNames_insert hbare.opened, hindexes a hcreated]
        have hindexed : (b.ledger.next (.createCollection name)).indexed a = b.ledger.indexed a :=
          Function.update_of_ne heq _ _
        rw [hindexed]
        refine or_iff_right fun h => hdelimiter ?_
        rw [← h.1]
        exact delimiter_infix_indexFamily a f

/-- **A drop that RocksDB refuses** keeps them exact if none of the indexes is dropped. -/
theorem Exact.refused_iff (hb : b.Exact) :
    Exact ⟨⟨b.session.database.replaced name, b.session.database.stripped b.session.engine r name⟩,
      b.ledger⟩ ↔
      (name ∈ b.session.engine.getCollectionNames →
        b.session.database.IndexesRefused b.session.engine r name) := by
  obtain ⟨hcollections, hindexes⟩ := hb
  constructor
  · rintro ⟨-, hlists⟩ hname
    have hcreated := (hcollections name).mp hname
    -- the list is the one before, and it gets shorter with every drop
    have hsame : (b.session.database.stripped b.session.engine r name).getIndexNames name =
        b.session.engine.getIndexNames name :=
      StorageEngine.getIndexNames_eq_of_mem_iff
        (StorageEngine.pairwise_getIndexNames b.session.engine name) fun g =>
          (hlists name hcreated g).trans (hindexes name hcreated g).symm
    rw [Database.getIndexNames_stripped] at hsame
    have hrefused := refused_sublist (b.session.database.indexRefusals b.session.engine r name)
      (b.session.database.left b.session.engine r name)
    have hleft : (b.session.database.left b.session.engine r name).Sublist
        (b.session.engine.getIndexNames name) := by
      rw [Database.left]
      rcases b.session.database.find name with _ | c
      · exact List.Sublist.refl _
      · exact refused_sublist _ _
    have heq := hleft.antisymm (hsame ▸ hrefused)
    exact ⟨heq, hsame.trans heq.symm⟩
  · intro h
    refine ⟨fun n => ?_, fun a ha f => ?_⟩
    · rw [Database.mem_getCollectionNames_stripped, hcollections n]
    · by_cases heq : a = name
      · subst heq
        obtain ⟨hleft, hrefused⟩ := h ((hcollections a).mpr ha)
        rw [Database.getIndexNames_stripped, hrefused, hleft, hindexes a ha]
      · rw [Database.mem_getIndexNames_stripped_of_ne heq, hindexes a ha]

/-- **A drop that goes through** keeps them exact if it is not one of an index of a collection. -/
theorem Exact.drop_iff (hb : b.Exact) (hname : name ∈ b.session.engine.columnFamilies_) :
    Exact ⟨⟨b.session.database.replaced name,
      (b.session.database.stripped b.session.engine r name).withFamilies
        ((b.session.database.stripped b.session.engine r name).columnFamilies_.erase name)⟩,
      b.ledger.next (.dropCollection name)⟩ ↔
      ∀ a g, StorageEngine.splitIndexName name = some (a, g) →
        a ∉ b.session.engine.getCollectionNames := by
  obtain ⟨hcollections, hindexes⟩ := hb
  have hstripped := (@Database.mem_stripped b.session.database b.session.engine r name).mpr hname
  constructor
  · rintro ⟨-, hlists⟩ a g hsplit ha
    obtain ⟨rfl, hsep⟩ := StorageEngine.splitIndexName_eq_some_iff.mp hsplit
    have hcreated := (hcollections a).mp ha
    have hlisted := (hindexes a hcreated g).mp (StorageEngine.mem_getIndexNames.mpr ⟨hname, hsep⟩)
    have hmem := (hlists a ⟨hcreated, fun h => indexFamily_ne a g h.symm⟩ g).mpr hlisted
    exact ((StorageEngine.mem_getIndexNames_erase_family hstripped).mp hmem).1 rfl
  · intro h
    refine ⟨fun n => ?_, fun a ha f => ?_⟩
    · rw [StorageEngine.mem_getCollectionNames_erase hstripped,
        Database.mem_getCollectionNames_stripped, hcollections n, and_comm]
      rfl
    · obtain ⟨hcreated, hne⟩ := ha
      rw [StorageEngine.mem_getIndexNames_erase_family hstripped,
        Database.mem_getIndexNames_stripped_of_ne hne, hindexes a hcreated]
      refine and_iff_right_of_imp fun hf heq => ?_
      have hsep := (StorageEngine.mem_getIndexNames.mp ((hindexes a hcreated f).mpr hf)).2
      exact h a f (StorageEngine.splitIndexName_eq_some_iff.mpr ⟨heq.symm, hsep⟩)
        ((hcollections a).mpr hcreated)

/-- An index that is created is in the ledger. -/
theorem Ledger.indexed_self {ledger : Ledger} :
    (ledger.next (.collection c (.createIndex f))).indexed c.name_ =
      insert f (ledger.indexed c.name_) := Function.update_self _ _ _

theorem Ledger.indexed_other {ledger : Ledger} {a : Bytes} (ha : a ≠ c.name_) :
    (ledger.next (.collection c (.createIndex f))).indexed a = ledger.indexed a :=
  Function.update_of_ne ha _ _

/-- An index whose family does not come is listed if it was. -/
theorem Exact.createIndex_kept_iff (hb : b.Exact)
    (hwhy : c.getIndexCfName f ∈ b.session.engine.columnFamilies_ ∨ r.head.isSome = true) :
    Exact ⟨⟨b.session.database, b.session.engine⟩,
      b.ledger.next (.collection c (.createIndex f))⟩ ↔
      b.session.Orderly ⟨.collection c (.createIndex f), r⟩ := by
  obtain ⟨hcollections, hindexes⟩ := hb
  rw [Session.Orderly]
  simp only
  split_ifs with hcreated
  · have hcreated' := (hcollections c.name_).mp hcreated
    constructor
    · rintro ⟨-, hlists⟩
      have hlisted := (hlists c.name_ hcreated' f).mpr (by rw [Ledger.indexed_self]; exact Set.mem_insert f _)
      obtain ⟨hmem, hsep⟩ := StorageEngine.mem_getIndexNames.mp hlisted
      exact ⟨hsep, Or.inl hmem⟩
    · rintro ⟨hsep, hmade⟩
      have hmem : c.getIndexCfName f ∈ b.session.engine.columnFamilies_ := by
        rcases hmade with hin | hhead
        · exact hin
        · exact hwhy.resolve_right fun hsome => by simp [hhead] at hsome
      -- the index was there already
      have hlisted := (hindexes c.name_ hcreated' f).mp
        (StorageEngine.mem_getIndexNames.mpr ⟨hmem, hsep⟩)
      refine ⟨hcollections, fun a ha g => ?_⟩
      by_cases heq : a = c.name_
      · subst heq
        rw [hindexes c.name_ ha, Ledger.indexed_self, Set.insert_eq_of_mem hlisted]
      · rw [hindexes a ha, Ledger.indexed_other heq]
  · have hne {a : Bytes} (ha : a ∈ b.ledger.created) : a ≠ c.name_ := by
      rintro rfl
      exact hcreated ((hcollections _).mpr ha)
    refine iff_of_true ⟨hcollections, fun a ha g => ?_⟩ ?_
    · rw [hindexes a ha, Ledger.indexed_other (hne ha)]
    · rcases hwhy with hin | hsome
      · exact Or.inl hin
      · exact Or.inr (Or.inl (Option.isSome_iff_ne_none.mp hsome))

/-- An index whose family comes is listed under the collection its family is split to. -/
theorem Exact.createIndex_added_iff (hb : b.Exact) (hbare : b.session.engine.Bare)
    (hfamily : c.getIndexCfName f ∉ b.session.engine.columnFamilies_) (hhead : r.head = none) :
    Exact ⟨⟨b.session.database, b.session.engine.withFamilies
        (b.session.engine.columnFamilies_.insert (c.getIndexCfName f) ∅)⟩,
      b.ledger.next (.collection c (.createIndex f))⟩ ↔
      b.session.Orderly ⟨.collection c (.createIndex f), r⟩ := by
  obtain ⟨hcollections, hindexes⟩ := hb
  have hown (g : Bytes) : indexFamily c.name_ g = c.getIndexCfName f ↔ g = f :=
    ⟨indexFamily_injective, fun h => h ▸ rfl⟩
  have hnames (n : Bytes) : n ∈ (b.session.engine.withFamilies (b.session.engine.columnFamilies_.insert
      (c.getIndexCfName f) ∅)).getCollectionNames ↔ n ∈ b.ledger.created := by
    rw [StorageEngine.mem_getCollectionNames_insert hbare.opened]
    refine (or_iff_right ?_).trans (hcollections n)
    rintro ⟨rfl, -, hn⟩
    exact hn (delimiter_infix_indexFamily c.name_ f)
  have hlist (a g : Bytes) := @StorageEngine.mem_getIndexNames_insert b.session.engine a g
    (c.getIndexCfName f) hbare.opened
  rw [Session.Orderly]
  simp only
  split_ifs with hcreated
  · have hcreated' := (hcollections c.name_).mp hcreated
    constructor
    · rintro ⟨-, hlists⟩
      have hlisted := (hlists c.name_ hcreated' f).mpr (by rw [Ledger.indexed_self]; exact Set.mem_insert f _)
      exact ⟨(StorageEngine.mem_getIndexNames.mp hlisted).2, Or.inr hhead⟩
    · rintro ⟨hsep, -⟩
      refine ⟨hnames, fun a ha g => (hlist a g).trans ?_⟩
      by_cases heq : a = c.name_
      · subst heq
        rw [hindexes c.name_ ha, Ledger.indexed_self, hown, Set.mem_insert_iff]
        exact or_congr_left (and_iff_left hsep)
      · rw [hindexes a ha, Ledger.indexed_other heq]
        refine or_iff_right fun h => heq ?_
        exact (StorageEngine.owner_eq_of_indexFamily_eq h.2 h.1.symm).symm.trans hsep
  · have hne {a : Bytes} (ha : a ∈ b.ledger.created) : a ≠ c.name_ := by
      rintro rfl
      exact hcreated ((hcollections _).mpr ha)
    constructor
    · rintro ⟨-, hlists⟩
      refine Or.inr (Or.inr fun howner => hfamily ?_)
      -- it is listed under the owner, which has no such index
      have howner' := (hcollections _).mp howner
      obtain ⟨g, hsplit⟩ := StorageEngine.splitIndexName_indexFamily c.name_ f
      obtain ⟨hfamilies, hsep⟩ := StorageEngine.splitIndexName_eq_some_iff.mp hsplit
      have hlisted := (hlists _ howner' g).mp ((hlist _ g).mpr (Or.inl ⟨hfamilies.symm, hsep⟩))
      rw [Ledger.indexed_other (hne howner')] at hlisted
      have hmem := (StorageEngine.mem_getIndexNames.mp ((hindexes _ howner' g).mpr hlisted)).1
      rwa [← hfamilies] at hmem
    · intro h
      have howner : owner c.name_ ∉ b.session.engine.getCollectionNames := by
        rcases h with hin | hsome | howner
        · exact absurd hin hfamily
        · exact absurd hhead hsome
        · exact howner
      refine ⟨hnames, fun a ha g => (hlist a g).trans ?_⟩
      rw [hindexes a ha, Ledger.indexed_other (hne ha)]
      refine or_iff_right fun h => howner ?_
      rw [StorageEngine.owner_eq_of_indexFamily_eq h.2 h.1.symm]
      exact (hcollections a).mpr ha

/-- **Creating an index** keeps them exact if the index comes to be listed under its collection,
and under no other. -/
theorem Exact.createIndex_iff (hb : b.Exact) (hbare : b.session.engine.Bare) :
    Exact ⟨⟨b.session.database,
      (b.session.engine.createCollection r.head (c.getIndexCfName f)).2⟩,
      b.ledger.next (.collection c (.createIndex f))⟩ ↔
      b.session.Orderly ⟨.collection c (.createIndex f), r⟩ := by
  rcases b.session.engine.createCollection_cases r.head (c.getIndexCfName f) with
    ⟨-, -, hdb⟩ | ⟨status, hc, -, hwhy⟩ | ⟨hc, hfamily, -, hhead⟩
  · exact absurd hbare.opened hdb
  · rw [hc]
    exact hb.createIndex_kept_iff hwhy
  · rw [hc]
    exact hb.createIndex_added_iff hbare hfamily hhead

/-- **Deleting an index** keeps them exact if it is not listed under another collection. -/
theorem Exact.deleteIndex_iff (hb : b.Exact)
    (hfamily : c.getIndexCfName f ∈ b.session.engine.columnFamilies_) :
    Exact ⟨⟨b.session.database, b.session.engine.withFamilies
      (b.session.engine.columnFamilies_.erase (c.getIndexCfName f))⟩,
      b.ledger.next (.collection c (.deleteIndex f))⟩ ↔
      Separable c.name_ ∨ owner c.name_ ∉ b.session.engine.getCollectionNames := by
  obtain ⟨hcollections, hindexes⟩ := hb
  have hother {a : Bytes} (ha : a ≠ c.name_) :
      (b.ledger.next (.collection c (.deleteIndex f))).indexed a = b.ledger.indexed a :=
    Function.update_of_ne ha _ _
  constructor
  · -- an index another collection lists is lost to it with the family
    rintro ⟨-, hlists⟩
    by_contra hcon
    obtain ⟨hsep, howner⟩ := not_or.mp hcon
    rw [not_not] at howner
    obtain ⟨g, hsplit⟩ := StorageEngine.splitIndexName_indexFamily c.name_ f
    obtain ⟨hfamilies, howned⟩ := StorageEngine.splitIndexName_eq_some_iff.mp hsplit
    have hcreated := (hcollections _).mp howner
    have hlisted : g ∈ b.session.engine.getIndexNames (owner c.name_) :=
      StorageEngine.mem_getIndexNames.mpr ⟨hfamilies ▸ hfamily, howned⟩
    have hmem := (hlists _ hcreated g).mpr
      (by rw [hother hsep]; exact (hindexes _ hcreated g).mp hlisted)
    exact ((StorageEngine.mem_getIndexNames_erase_family hfamily).mp hmem).1 hfamilies.symm
  · intro h
    refine ⟨fun n => ?_, fun a ha g => ?_⟩
    · rw [StorageEngine.mem_getCollectionNames_erase hfamily]
      refine (and_iff_right_of_imp fun hn heq => ?_).trans (hcollections n)
      rw [heq] at hn
      exact (StorageEngine.mem_getCollectionNames.mp hn).2.2
        (delimiter_infix_indexFamily c.name_ f)
    · rw [StorageEngine.mem_getIndexNames_erase_family hfamily, hindexes a ha]
      by_cases heq : a = c.name_
      · subst heq
        have hself : (b.ledger.next (.collection c (.deleteIndex f))).indexed c.name_ =
            b.ledger.indexed c.name_ \ {f} := Function.update_self _ _ _
        rw [hself, Set.mem_sdiff, Set.mem_singleton_iff, and_comm]
        refine and_congr_right fun _ => not_congr ⟨indexFamily_injective, ?_⟩
        rintro rfl
        rfl
      · rw [hother heq]
        refine and_iff_right_of_imp fun hg hfamilies => ?_
        have hsep := (StorageEngine.mem_getIndexNames.mp ((hindexes a ha g).mpr hg)).2
        have howner := StorageEngine.owner_eq_of_indexFamily_eq hsep hfamilies.symm
        rcases h with hc | hc
        · exact heq (howner.symm.trans hc)
        · exact hc (howner ▸ (hcollections a).mpr ha)

/-- **A step keeps the listings exact exactly if it is orderly.** -/
theorem Exact.step_iff {x : Event} (hb : b.Exact) (hbare : b.session.engine.Bare)
    (h : b.Step codec x b') : b'.Exact ↔ b.session.Orderly x := by
  obtain ⟨call, r⟩ := x
  cases call with
  | createCollection name =>
    rcases h.of_createCollection with ⟨rfl, hwhy⟩ | ⟨hname, -, hhead, rfl⟩
    · refine iff_of_true hb fun hname hhead => absurd hwhy (not_or.mpr ⟨hname, ?_⟩)
      simp [show r.head = none from hhead]
    · rw [hb.create_iff hbare hname]
      exact ⟨fun hcond _ _ => hcond, fun hcond => hcond hname hhead⟩
  | dropCollection name =>
    obtain ⟨hname, hrefused, hdropped⟩ := h.of_dropCollection
    by_cases hfamily : b.session.database.FamilyRefused b.session.engine r name
    · rw [hrefused hfamily, hb.refused_iff]
      exact ⟨fun hcond => ⟨fun _ => hcond, fun hnot => absurd hfamily hnot⟩,
        fun hcond => hcond.1 hfamily⟩
    · rw [hdropped hfamily, hb.drop_iff hname]
      exact ⟨fun hcond => ⟨fun hyes => absurd hyes hfamily, fun _ => hcond⟩,
        fun hcond => hcond.2 hfamily⟩
  | getCollection name =>
    refine iff_of_true ?_ trivial
    have hengine : b'.session.engine = b.session.engine := by
      rcases h.2.1.of_getCollection with heq | ⟨-, -, heq⟩ <;> rw [heq]
    have hledger : b'.ledger = b.ledger := h.2.2
    rw [Exact, hengine, hledger]
    exact hb
  | collection c call =>
    cases call with
    | createIndex f =>
      rw [h.of_createIndex hbare]
      exact hb.createIndex_iff hbare
    | deleteIndex f =>
      rcases h.of_deleteIndex with ⟨rfl, hwhy⟩ | ⟨hfamily, hhead, rfl⟩
      · exact iff_of_true hb fun hfamily hhead => absurd hhead (hwhy hfamily)
      · rw [hb.deleteIndex_iff hfamily]
        exact ⟨fun hcond _ _ => hcond, fun hcond => hcond hfamily hhead⟩
    | document call => exact h.1.elim
  | _ => exact h.1.elim

/-- **The listings are exact** in every state of an orderly run, and a run keeps them exact only
if it is orderly. The name that is built for an index is split into the same pair if the name
of the collection is separable, and only then; and it is no collection's. -/
theorem exact_of_orderly {history : List Event} :
    (History.Run (History.Meeting (fun b x => b.session.Orderly x) (Step codec)) opened history b →
      b.Exact) ∧
    (History.Run (History.Into Exact (Step codec)) opened history b ↔
      History.Run (History.Meeting (fun b x => b.session.Orderly x) (Step codec)) opened history b) ∧
    ∀ c f, (StorageEngine.splitIndexName (indexFamily c f) = some (c, f) ↔ Separable c) ∧
      indexFamily c f ∉ b.session.engine.getCollectionNames := by
  have hdefault {n : Bytes} (hn : n ∈ StorageEngine.fresh.columnFamilies_) :
      kDefaultColumnFamilyName = n := by
    have hn : n ∈ (∅ : ColumnFamilies).insert kDefaultColumnFamilyName ∅ := hn
    simpa [Std.LawfulEqCmp.compare_eq_iff_eq] using hn
  have hstart : opened.Exact := by
    refine ⟨fun n => iff_of_false (fun hn => ?_) (Set.notMem_empty n), fun c hc => ?_⟩
    · obtain ⟨hmem, hne, -⟩ := StorageEngine.mem_getCollectionNames.mp hn
      exact hne (hdefault hmem).symm
    · exact absurd hc (Set.notMem_empty c)
  have hbare : opened.session.engine.Bare := by
    refine ⟨rfl, ⟨fun _ => Std.ExtTreeMap.mem_insert_self, fun hne => absurd rfl hne⟩, ?_⟩
    intro n cf hcf
    have hn := hdefault (StorageEngine.mem_iff_contents.mpr (congrArg Option.isSome hcf))
    subst hn
    exact (Option.some.inj (Std.ExtTreeMap.getElem?_insert_self.symm.trans hcf)).symm
  have hiff := @History.Run.into_iff_meeting_of_invariant _ _ (Step codec) opened b history Exact
    (fun b => b.session.engine.Bare) (fun b x => b.session.Orderly x) hstart hbare
    (fun hJ hstep => hstep.bare hJ) fun hJ hb hstep => hb.step_iff hJ hstep
  refine ⟨fun h => (hiff.mpr h).of_into hstart, hiff, fun c f => ⟨?_, fun hn => ?_⟩⟩
  · rw [StorageEngine.splitIndexName_eq_some_iff]
    exact and_iff_right rfl
  · exact (StorageEngine.mem_getCollectionNames.mp hn).2.2 (delimiter_infix_indexFamily c f)

/-- The state after a call of which RocksDB refuses nothing. -/
def after (codec : Codec) (b : Booked) (call : SessionCall) : Booked :=
  ⟨b.session.after codec call,
    if (b.session.status codec ⟨call, Stream'.const none⟩).any Status.ok then b.ledger.next call
    else b.ledger⟩

theorem step_after {call : SessionCall} (hcall : call.IsArrangement)
    (h : b.session.returns codec call = true) :
    b.Step codec ⟨call, Stream'.const none⟩ (b.after codec call) :=
  ⟨hcall, Session.does_after h, rfl⟩

theorem ledger_after {call : SessionCall}
    (h : (b.session.status codec ⟨call, Stream'.const none⟩).any Status.ok = true) :
    (b.after codec call).ledger = b.ledger.next call := if_pos h

/-- A collection is created. -/
def withCollection (c : Collection) : Booked := opened.after .standard (.createCollection c.name_)

/-- An index is created on it. -/
def withIndex (c : Collection) : Booked :=
  (withCollection c).after .standard (.collection c (.createIndex (Bytes.ofText "f")))

/-- The two calls. -/
def indexing (c : Collection) : List Event :=
  [⟨.createCollection c.name_, Stream'.const none⟩,
    ⟨.collection c (.createIndex (Bytes.ofText "f")), Stream'.const none⟩]

theorem exact_indexing : History.Run (Step .standard) opened (indexing letterC) (withIndex letterC) ∧
    (withIndex letterC).Exact := by
  have hcreate : opened.Step .standard ⟨.createCollection letterC.name_, Stream'.const none⟩
      (withCollection letterC) := step_after trivial (by decide +kernel)
  have hindex : (withCollection letterC).Step .standard
      ⟨.collection letterC (.createIndex (Bytes.ofText "f")), Stream'.const none⟩
      (withIndex letterC) := step_after trivial (by decide +kernel)
  have hfirst : opened.session.Orderly ⟨.createCollection letterC.name_, Stream'.const none⟩ :=
    fun _ _ => ⟨Bytes.find_eq_none_iff.mp (by decide), by decide +kernel⟩
  have hlast : (withCollection letterC).session.Orderly
      ⟨.collection letterC (.createIndex (Bytes.ofText "f")), Stream'.const none⟩ := by
    have hlisted : letterC.name_ ∈ (withCollection letterC).session.engine.getCollectionNames := by
      decide +kernel
    simp only [Session.Orderly]
    rw [if_pos hlisted]
    exact ⟨by decide, Or.inr rfl⟩
  have hrun : History.Run (History.Meeting (fun b x => b.session.Orderly x) (Step .standard)) opened
      (indexing letterC) (withIndex letterC) :=
    (History.Run.nil.snoc ⟨hfirst, hcreate⟩).snoc ⟨hlast, hindex⟩
  exact ⟨hrun.of_meeting, exact_of_orderly.1 hrun⟩

/-- A collection whose name ends in a part of the delimiter. -/
def trailing : Collection := ⟨Bytes.ofText "x__index"⟩

/-- **An index that is not listed**: the name of its family, `x__index__index__f`, is split into
`x` and `index__f`. -/
theorem not_exact_of_trailing :
    History.Run (Step .standard) opened (indexing trailing) (withIndex trailing) ∧
      ¬(withIndex trailing).Exact := by
  have hfirst : opened.Step .standard ⟨.createCollection trailing.name_, Stream'.const none⟩
      (withCollection trailing) := step_after trivial (by decide +kernel)
  have hlast : (withCollection trailing).Step .standard
      ⟨.collection trailing (.createIndex (Bytes.ofText "f")), Stream'.const none⟩
      (withIndex trailing) := step_after trivial (by decide +kernel)
  refine ⟨(History.Run.nil.snoc hfirst).snoc hlast, fun h => ?_⟩
  have hcreate : (withCollection trailing).ledger =
      Ledger.empty.next (.createCollection trailing.name_) := ledger_after (by decide +kernel)
  have hindex : (withIndex trailing).ledger = (withCollection trailing).ledger.next
      (.collection trailing (.createIndex (Bytes.ofText "f"))) := ledger_after (by decide +kernel)
  have hcreated : trailing.name_ ∈ (withIndex trailing).ledger.created := by
    rw [hindex, hcreate]
    exact Set.mem_insert _ _
  have hindexed : Bytes.ofText "f" ∈ (withIndex trailing).ledger.indexed trailing.name_ := by
    rw [hindex]
    simp [Ledger.next]
  exact absurd ((h.2 _ hcreated _).mpr hindexed) (by decide +kernel)

end Booked

end AnuDB
