import AnuDB.Handle
import AnuDB.Lib.Interleave
import AnuDB.Replica

/-!
# What is left when the process dies?

The process may die at any moment: between two calls, or in the middle of one. No destructor runs
then, and the next process finds on the path what RocksDB held (`AnuDB.Session.restarted`). So a
session may go on from there, and nothing of what it had in memory is left.

A call may be several engine calls, so it may be left half done. The documents cannot tell: a call
that has reported OK has done what it is to do, one that has reported something else or has thrown
has done nothing, and one in which the process has died has done all of it or nothing
(`AnuDB.Catalog.Follows`). So the documents that are there after any calls and any deaths are those
of a catalog that follows the calls (`AnuDB.Session.catalog_of_lives`).

As in the catalog a client keeps, names with the delimiter of indexes in them are left out.
-/

namespace AnuDB

open Effect

/-! ### What a path holds -/

namespace StorageEngine

/-- **The engine that opening the path would give**: what is open is as it is. -/
def opened (e : StorageEngine) : StorageEngine := (e.open none).2

/-- The process has died, and a new one has not opened the path yet. -/
def crashed (e : StorageEngine) : StorageEngine :=
  { unopened with disk := if e.db_ = .opened then e.columnFamilies_ else e.disk }

variable {e : StorageEngine} {n : Bytes} {fault : Option Bytes}

theorem opened_of_opened (hdb : e.db_ = .opened) : e.opened = e := by
  simp only [opened, StorageEngine.open, if_pos hdb]

theorem columnFamilies_opened (hdb : e.db_ ≠ .opened) : e.opened.columnFamilies_ =
    if e.disk.isEmpty then e.disk.insert kDefaultColumnFamilyName ∅ else e.disk := by
  simp only [opened, StorageEngine.open, if_neg hdb]

/-- What was open is on the path then. -/
theorem contents_opened_of_disk {e' : StorageEngine} (hdb : e.db_ = .opened) (he : e.Rooted)
    (hdb' : e'.db_ ≠ .opened) (hdisk : e'.disk = e.columnFamilies_) :
    e'.opened.contents n = e.opened.contents n := by
  have hmem : kDefaultColumnFamilyName ∈ e'.disk := hdisk ▸ he.1 hdb
  have hempty : e'.disk.isEmpty = false := by
    rw [Std.ExtTreeMap.isEmpty_eq_false_iff]
    exact fun h => Std.ExtTreeMap.not_mem_empty (h ▸ hmem)
  rw [contents, contents, columnFamilies_opened hdb', hempty, opened_of_opened hdb, hdisk]
  rfl

/-- What was on the path stays there. -/
theorem contents_opened_of_closed {e' : StorageEngine} (hdb : e.db_ ≠ .opened)
    (hdb' : e'.db_ ≠ .opened) (hdisk : e'.disk = e.disk) :
    e'.opened.contents n = e.opened.contents n := by
  rw [contents, contents, columnFamilies_opened hdb', columnFamilies_opened hdb, hdisk]

/-- **A death loses nothing.** -/
theorem contents_crashed (he : e.Rooted) : e.crashed.opened.contents n = e.opened.contents n := by
  have hdb' : e.crashed.db_ ≠ .opened := by simp [crashed, unopened]
  by_cases hdb : e.db_ = .opened
  · exact contents_opened_of_disk hdb he hdb' (if_pos hdb)
  · exact contents_opened_of_closed hdb hdb' (if_neg hdb)

theorem rooted_crashed (he : e.Rooted) : e.crashed.Rooted := by
  refine ⟨fun h => absurd h (by simp [crashed, unopened]), fun _ => ?_⟩
  by_cases hdb : e.db_ = .opened
  · have hdisk : e.crashed.disk = e.columnFamilies_ := if_pos hdb
    exact Or.inr (hdisk ▸ he.1 hdb)
  · have hdisk : e.crashed.disk = e.disk := if_neg hdb
    rw [hdisk]
    exact he.2 hdb

/-- Closing loses nothing either. -/
theorem contents_close (he : e.Rooted) :
    (e.close fault).2.opened.contents n = e.opened.contents n := by
  rcases hdb : e.db_ with _ | _ | _ | _
  · simp only [StorageEngine.close, hdb]
  · simp only [StorageEngine.close, hdb]
  · cases fault <;>
      exact contents_opened_of_disk hdb he (by simp [StorageEngine.close, hdb])
        (by simp [StorageEngine.close, hdb])
  · cases fault <;>
      exact contents_opened_of_closed (by simp [hdb]) (by simp [StorageEngine.close, hdb])
        (by simp [StorageEngine.close, hdb])

/-- And opening changes nothing of what there is. -/
theorem contents_open : (e.open fault).2.opened.contents n = e.opened.contents n := by
  cases fault with
  | some text => rfl
  | none =>
    by_cases hdb : e.db_ = .opened
    · have hsame : (e.open none).2 = e := opened_of_opened hdb
      rw [hsame]
    · have hopened : (e.open none).2.db_ = .opened := by simp only [StorageEngine.open, if_neg hdb]
      rw [opened_of_opened hopened]
      rfl

/-- On a path that is not open, nothing is done. -/
theorem exec_of_closed (hdb : e.db_ ≠ .opened) {x : Call} (hx : x.KeepsHandle) :
    (e.exec fault x).2 = e := by
  have hempty := e.families_eq_empty hdb
  have hnone (n : Bytes) : n ∉ e.columnFamilies_ := by
    rw [hempty]
    exact Std.ExtTreeMap.not_mem_empty
  have hget (n : Bytes) : e.columnFamilies_[n]? = none := by
    rw [hempty]
    exact Std.ExtTreeMap.getElem?_empty
  cases x with
  | «open» => exact hx.elim
  | close => exact hx.elim
  | createCollection name => simp only [exec, createCollection, if_neg (hnone name), if_pos hdb]
  | dropCollection name => simp only [exec, dropCollection, if_neg (hnone name)]
  | put collection key value => simp only [exec, put, hget]
  | remove collection key => simp only [exec, remove, hget]
  | _ => rfl

end StorageEngine

/-- The call changes nothing of the family of that name, on the path or off it: it may open or
close. -/
def Call.Spares (n : Bytes) (x : Call) : Prop := x.KeepsHandle → ¬x.Touches n

theorem StorageEngine.contents_exec_of_spares {e : StorageEngine} {n : Bytes} {x : Call}
    (he : e.Rooted) (hx : x.Spares n) (fault : Option Bytes) :
    (e.exec fault x).2.opened.contents n = e.opened.contents n := by
  by_cases hkeeps : x.KeepsHandle
  · by_cases hdb : e.db_ = .opened
    · rw [opened_of_opened hdb, opened_of_opened ((db_exec hkeeps fault).trans hdb)]
      exact contents_exec (hx hkeeps) fault
    · rw [exec_of_closed hdb hkeeps]
  · cases x with
    | «open» => exact contents_open
    | close => exact contents_close he
    | _ => exact absurd trivial hkeeps

/-- **A run keeps what a path holds under a name.** -/
def KeepsOnPath (n : Bytes) (w w' : World) : Prop :=
  w.engine.Rooted → w'.engine.Rooted ∧ w'.engine.opened.contents n = w.engine.opened.contents n

section KeepsOnPath

variable {n : Bytes} {w w' w'' : World}

theorem KeepsOnPath.refl (n : Bytes) (w : World) : KeepsOnPath n w w := fun hw => ⟨hw, rfl⟩

theorem KeepsOnPath.trans (h : KeepsOnPath n w w') (h' : KeepsOnPath n w' w'') :
    KeepsOnPath n w w'' := by
  intro hw
  obtain ⟨hw', hcontents⟩ := h hw
  obtain ⟨hw'', hcontents'⟩ := h' hw'
  exact ⟨hw'', hcontents'.trans hcontents⟩

theorem KeepsOnPath.of_handle {x : Call} {r : x.Reply} (hx : x.Spares n)
    (hhandle : World.handle x w = some (r, w')) : KeepsOnPath n w w' := by
  intro hw
  obtain ⟨fault, hexec, -⟩ := World.exists_fault_of_handle hhandle
  have hrooted := hw.exec fault x
  have hcontents := StorageEngine.contents_exec_of_spares hw hx fault
  rw [hexec] at hrooted hcontents
  exact ⟨hrooted, hcontents⟩

/-- **What no call of a program changes stays on the path**, however the run ends. -/
theorem Engine.keepsOnPath_run {α : Type} {p : Engine α} (h : p.Uses (Call.Spares n)) (w : World) :
    KeepsOnPath n w (p.run w).2 :=
  Prog.run_of_uses (KeepsOnPath.refl n) KeepsOnPath.trans
    (fun _ _ _ _ hx hhandle => .of_handle hx hhandle) h w

theorem Engine.contents_opened_of_run {α : Type} {p : Engine α} {outcome : Outcome Exn α}
    (h : p.Uses (Call.Spares n)) (hw : w.engine.Rooted) (hrun : p.run w = (outcome, w')) :
    w'.engine.opened.contents n = w.engine.opened.contents n := by
  have hkept := (Engine.keepsOnPath_run h w hw).2
  rwa [hrun] at hkept

end KeepsOnPath

theorem Call.spares_of_onIndexes {x : Call} {name n : Bytes} (h : x.OnIndexes name)
    (hn : ¬index_delimiter_ <:+: n) : x.Spares n := fun _ => h.not_touches hn

theorem Call.spares_of_within {x : Call} {name n : Bytes} (h : x.Within name) (hne : n ≠ name)
    (hn : ¬index_delimiter_ <:+: n) : x.Spares n := fun _ => h.not_touches hne hn

/-! ### What calls of a database leave -/

namespace Database

variable {db : Database} {name n : Bytes} {w w' : World}

theorem spares_destroyAll (hn : ¬index_delimiter_ <:+: n) (collections : List Collection) :
    (destroyAll collections).Uses (Call.Spares n) := by
  induction collections with
  | nil => trivial
  | cons c collections ih =>
    exact Prog.Uses.bind (Collection.uses_destroy.mono fun x hx => Call.spares_of_onIndexes hx hn)
      fun _ => ih

theorem spares_close (hn : ¬index_delimiter_ <:+: n) : db.close.Uses (Call.Spares n) := by
  refine Prog.Uses.bind (spares_destroyAll hn db.collections_) fun _ => ?_
  refine Prog.Uses.bind (Prog.Uses.bind (Prog.uses_perform.mpr fun h => h.elim) fun r =>
    Prog.uses_ofExcept r) fun status => Prog.uses_pure _

theorem spares_open : db.open.Uses (Call.Spares n) :=
  Prog.Uses.bind (Prog.uses_perform.mpr fun h => h.elim) fun _ => Prog.uses_pure _

theorem spares_erase (hn : ¬index_delimiter_ <:+: n) : (db.erase name).Uses (Call.Spares n) :=
  uses_erase.mono fun _ hx => Call.spares_of_onIndexes hx hn

theorem spares_getCollection : (db.getCollection name).Uses (Call.Spares n) := by
  rw [getCollection]
  rcases db.find name with _ | c
  · refine Prog.Uses.bind (Prog.uses_perform.mpr fun _ h => h) fun found => ?_
    split_ifs <;> trivial
  · trivial

/-- The destructors throw nothing. -/
theorem raises_erase : (db.erase name).Raises fun _ => False := by
  rw [erase]
  rcases db.find name with _ | c
  · trivial
  · have hdeletes (indexes : List Bytes) : (c.deleteIndexes indexes).Raises fun _ => False := by
      induction indexes with
      | nil => trivial
      | cons index indexes ih => exact Prog.Raises.bind (Prog.raises_perform _) fun _ => ih
    refine Prog.Raises.bind ?_ fun _ => Prog.raises_pure _
    exact Prog.Raises.bind (Prog.raises_perform _) hdeletes

/-- **How the creation of a collection ends**: nothing has been done, or it is there, and empty. -/
theorem createCollection_ends (hw : w.engine.Rooted) (hname : ¬index_delimiter_ <:+: name)
    {outcome : Outcome Exn (Status × Database)}
    (hrun : (db.createCollection name).run w = (outcome, w')) :
    w'.engine.opened.contents name = w.engine.opened.contents name ∧
        (∀ x, outcome = .ret x → x.1.ok = false) ∨
      w'.engine.opened.contents name = some ∅ ∧
        (outcome = .stopped ∨ ∃ x, outcome = .ret x ∧ x.1.ok = true) := by
  rw [createCollection, Engine.createCollection, bind_assoc, Engine.run_call_bind] at hrun
  rcases hfault : w.fates.head.fault? with _ | fault
  · simp only [hfault] at hrun
    obtain ⟨rfl, rfl⟩ := Prod.mk.inj hrun
    exact Or.inl ⟨rfl, fun x hx => by cases hx⟩
  simp only [hfault, StorageEngine.exec] at hrun
  rcases w.engine.createCollection_cases fault name with
    ⟨hc, -⟩ | ⟨status, hc, hok, -⟩ | ⟨hc, -, hdb, -⟩
  · rw [hc] at hrun
    obtain ⟨rfl, rfl⟩ := Prod.mk.inj hrun
    exact Or.inl ⟨rfl, fun x hx => by cases hx⟩
  · rw [hc] at hrun
    change Engine.run (if status.ok then _ else _ : Engine _) _ = _ at hrun
    rw [hok] at hrun
    obtain ⟨rfl, rfl⟩ := Prod.mk.inj hrun
    exact Or.inl ⟨rfl, fun x hx => Outcome.ret.inj hx ▸ hok⟩
  · -- the family is there, and the object of the name leaves the cache
    have hexec := congrArg Prod.snd hc
    have hrooted : (w.engine.createCollection fault name).2.Rooted :=
      hw.exec fault (.createCollection name)
    rw [hc] at hrun
    rw [hexec] at hrooted
    have hempty : (w.engine.withFamilies (w.engine.columnFamilies_.insert name ∅)).opened.contents
        name = some ∅ := by
      rw [StorageEngine.opened_of_opened (StorageEngine.db_withFamilies.trans hdb),
        StorageEngine.contents, StorageEngine.columnFamilies_withFamilies hdb,
        Std.ExtTreeMap.getElem?_insert_self]
    generalize w.engine.withFamilies (w.engine.columnFamilies_.insert name ∅) = e₁ at *
    change Engine.run (db.erase name >>= fun db => _) (w.next e₁) = _ at hrun
    rw [Engine.run, Prog.run_bind] at hrun
    rcases herase : Prog.run World.handle (db.erase name) (w.next e₁) with ⟨db' | exn | _, w₁⟩
    · have hcontents := Engine.contents_opened_of_run (spares_erase hname) hrooted herase
      rw [herase] at hrun
      obtain ⟨rfl, rfl⟩ := Prod.mk.inj hrun
      exact Or.inr ⟨hcontents.trans hempty, Or.inr ⟨_, rfl, rfl⟩⟩
    · exact (raises_erase.of_run herase).elim
    · have hcontents := Engine.contents_opened_of_run (spares_erase hname) hrooted herase
      rw [herase] at hrun
      obtain ⟨rfl, rfl⟩ := Prod.mk.inj hrun
      exact Or.inr ⟨hcontents.trans hempty, Or.inl rfl⟩

/-- **How the drop of a collection ends**: nothing has been done to its documents, or it is gone. -/
theorem dropCollection_ends (hw : w.engine.Rooted) (hname : ¬index_delimiter_ <:+: name)
    {outcome : Outcome Exn (Status × Database)}
    (hrun : (db.dropCollection name).run w = (outcome, w'))
    (hdefined : ∀ u, outcome ≠ .raise (.undefined u)) :
    w'.engine.opened.contents name = w.engine.opened.contents name ∧
        (∀ x, outcome = .ret x → x.1.ok = false) ∨
      w'.engine.opened.contents name = none ∧ ∃ x, outcome = .ret x ∧ x.1.ok = true := by
  by_cases hstopped : outcome = .stopped
  · -- the family goes with the last call
    subst hstopped
    have hcommits : (db.dropCollection name).Commits (Call.Spares name) fun _ => True := by
      refine Prog.Uses.bind_commits (spares_erase hname) fun db => ?_
      refine Prog.Uses.bind_commits spares_getCollection fun found => ?_
      rcases found with ⟨_ | c, db⟩
      · trivial
      · refine Prog.Uses.bind_commits (Prog.uses_perform.mpr fun _ h => h) fun indexes => ?_
        refine Prog.Uses.bind_commits ((Collection.uses_deleteIndexes indexes).mono fun x hx =>
          Call.spares_of_onIndexes hx hname) fun _ => ?_
        exact (Prog.commits_perform trivial).bind fun _ => trivial
    have hkept := hcommits.run_stopped (KeepsOnPath.refl name) KeepsOnPath.trans
      (fun _ _ _ _ hx hhandle => .of_handle hx hhandle) hrun hw
    exact Or.inl ⟨hkept.2, fun x hx => by cases hx⟩
  · have hrefusing := Engine.run_refusing_of_not_stopped hrun hstopped
    by_cases hmem : name ∈ w.engine.columnFamilies_
    case neg =>
      have hraise : ((db.dropCollection name).run (.refusing w.engine w.refusals)).1 = _ :=
        run_dropCollection_of_notMem hmem
      rw [hrefusing] at hraise
      exact absurd hraise (hdefined _)
    have hdb : w.engine.db_ = .opened := by
      by_contra hdb
      rw [w.engine.families_eq_empty hdb] at hmem
      exact Std.ExtTreeMap.not_mem_empty hmem
    have hdb' : w'.engine.db_ = .opened := by
      have hkept := Engine.db_run (w := w) (@keepsHandle_dropCollection db name)
      rw [hrun] at hkept
      exact hkept.trans hdb
    obtain ⟨rfl, hw'⟩ := Prod.mk.inj (hrefusing.symm.trans (run_dropCollection_of_mem hmem))
    have hengine := congrArg World.engine hw'
    rw [StorageEngine.opened_of_opened hdb, StorageEngine.opened_of_opened hdb']
    change w'.engine = _ at hengine
    rw [hengine]
    by_cases hrefused : db.FamilyRefused w.engine w.refusals name
    · obtain ⟨hok, hsame⟩ := dropCollection_of_refused hmem hrefused
      refine Or.inl ⟨?_, fun x hx => Outcome.ret.inj hx ▸ hok⟩
      change (StorageEngine.dropCollection _ _ _).2.contents name = _
      rw [hsame]
      exact contents_stripped fun f => (indexFamily_ne name f).symm
    · refine Or.inr ⟨?_, _, rfl, dropCollection_of_not_refused hmem hrefused⟩
      obtain ⟨hdefault, hlast⟩ := not_or.mp hrefused
      rw [Option.not_isSome_iff_eq_none.mp hlast]
      change (StorageEngine.dropCollection _ _ _).2.contents name = none
      have hgone := StorageEngine.not_mem_dropCollection (e := db.stripped w.engine w.refusals name)
        hdefault
      rw [StorageEngine.mem_iff_contents] at hgone
      simpa using hgone

end Database

/-! ### What calls on a collection leave -/

/-- On a path that is not open, a program does nothing. -/
theorem Engine.engine_run_of_closed {α : Type} {p : Engine α} {w : World}
    (h : p.Uses Call.KeepsHandle) (hdb : w.engine.db_ ≠ .opened) :
    (p.run w).2.engine = w.engine := by
  refine Prog.run_of_uses (I := fun w w' => w.engine.db_ ≠ .opened → w'.engine = w.engine)
    (fun _ _ => rfl) ?_ ?_ h w hdb
  · intro s t u hst htu hs
    have ht := hst hs
    exact (htu (ht ▸ hs)).trans ht
  · intro x s r s' hx hhandle hs
    obtain ⟨fault, hexec, -⟩ := World.exists_fault_of_handle hhandle
    have hsame : (s.engine.exec fault x).2 = s.engine := StorageEngine.exec_of_closed hs hx
    rwa [hexec] at hsame

/-- A document call on a path that is not open does not report OK. -/
theorem DocumentCall.not_ok_of_closed {codec : Codec} {c : Collection} {w : World}
    (hdb : w.engine.db_ ≠ .opened) (call : DocumentCall) {status : Status}
    (h : ((call.perform codec c).run w).1 = .ret status) : status.ok = false := by
  rcases hok : status.ok with _ | _
  · rfl
  · have hsteps := (run_ok_iff call).mp ⟨status, h, hok⟩
    rcases hlanded : call.landed codec c w with _ | ⟨x, ws⟩
    · rw [hlanded] at hsteps
      exact absurd hsteps steps_ne_nil
    · have hmem : x ∈ call.landed codec c w := by
        rw [hlanded]
        exact List.mem_cons_self
      have hx := mem_of_mem_landed hmem
      rw [w.engine.families_eq_empty hdb] at hx
      exact absurd hx Std.ExtTreeMap.not_mem_empty

/-- **A call on a collection changes what the path shows** as it changes the map. -/
theorem Shows.next_opened {codec : Codec} {c : Collection} {docs : Option DocumentMap}
    {w w' : World} {call : CollectionCall} {outcome : Outcome Exn Status}
    (hc : ¬index_delimiter_ <:+: c.name_) (hw : w.engine.Rooted)
    (h : Shows codec docs c.name_ w.engine.opened)
    (hrun : ((call.operation c).perform codec).run w = (outcome, w')) :
    Shows codec (docs.map fun docs => docs.next (call, outcome)) c.name_ w'.engine.opened := by
  have hindex (hsame : ∀ m : DocumentMap, m.next (call, outcome) = m)
      (huses : ((call.operation c).perform codec).Uses (Call.OnIndexes c.name_)) :
      Shows codec (docs.map fun docs => docs.next (call, outcome)) c.name_ w'.engine.opened := by
    simp only [hsame, Option.map_id']
    exact h.congr (Engine.contents_opened_of_run
      (huses.mono fun x hx => Call.spares_of_onIndexes hx hc) hw hrun)
  cases call with
  | createIndex index =>
    refine hindex (fun m => ?_) (Collection.uses_createIndex none index)
    rcases outcome with status | _ | _ <;> simp [DocumentMap.next, DocumentMap.apply]
  | deleteIndex index =>
    refine hindex (fun m => ?_) (Collection.uses_deleteIndex index)
    rcases outcome with status | _ | _ <;> simp [DocumentMap.next, DocumentMap.apply]
  | document call =>
    have hrun : (call.perform codec c).run w = (outcome, w') := hrun
    have hkeeps : (call.perform codec c).Uses Call.KeepsHandle :=
      CollectionCall.keepsHandle (.document call)
    by_cases hdb : w.engine.db_ = .opened
    · have hdb' := Engine.db_run (w := w) hkeeps
      rw [hrun] at hdb'
      rw [StorageEngine.opened_of_opened (hdb'.trans hdb)]
      rw [StorageEngine.opened_of_opened hdb] at h
      exact h.next hrun
    · have hsame := Engine.engine_run_of_closed hkeeps hdb
      rw [hrun] at hsame
      have hnext (m : DocumentMap) : m.next (.document call, outcome) = m := by
        rcases outcome with status | _ | _
        · have hok := call.not_ok_of_closed hdb (congrArg Prod.fst hrun)
          exact if_neg (by rw [hok]; decide)
        · rfl
        · rfl
      simp only [hnext, Option.map_id']
      exact hsame ▸ h

/-! ### Sessions that may die -/

/-- The call, made: what it reports, and what is left of the database. -/
def SessionCall.made (codec : Codec) (db : Database) : SessionCall → Engine (Status × Database)
  | .open => db.open
  | .close => db.close
  | .createCollection name => db.createCollection name
  | .dropCollection name => db.dropCollection name
  | .getCollection name => (fun x => (.OK, x.2)) <$> db.getCollection name
  | .collection c call => (fun status => (status, db)) <$> (call.operation c).perform codec

/-- The process has died, and there is a new one. -/
def Session.restarted (e : StorageEngine) : Session := ⟨⟨false, []⟩, e.crashed⟩

/-- What there is of a session when a call has ended: where the process has died in it, there is a
new one. -/
def Session.left (s : Session) (e : StorageEngine) : Outcome Exn (Status × Database) → Session
  | .ret x => ⟨x.2, e⟩
  | .raise _ => ⟨s.database, e⟩
  | .stopped => .restarted e

/-- **A step of a session that may die**: a call, and what the caller hears of it. The process may
also die before the caller hears of a call that is over. -/
def Session.LivesOn (codec : Codec) (s : Session) (x : SessionCall × Outcome Exn Status)
    (s' : Session) : Prop :=
  (∀ c call, x.1 = .collection c call → c ∈ s.database.collections_) ∧
  ∃ fates outcome w', (x.1.made codec s.database).run ⟨s.engine, fates⟩ = (outcome, w') ∧
    (∀ u, outcome ≠ .raise (.undefined u)) ∧
    (x.2 = outcome.map Prod.fst ∧ s' = s.left w'.engine outcome ∨
      x.2 = .stopped ∧ s' = .restarted w'.engine)

namespace Catalog

/-- **What a call of a database is to do** to the documents. -/
def done (m : Catalog) : SessionCall → Catalog
  | .createCollection name => Function.update m name (some fun _ => none)
  | .dropCollection name => Function.update m name none
  | .collection c call => m.edit c.name_ fun docs => docs.apply call
  | _ => m

/-- **What may have become of the documents**: a call that has reported OK has been done, and one
that has not has not; one in which the process has died may have been done or not. -/
def Follows (m : Catalog) (x : SessionCall × Outcome Exn Status) (m' : Catalog) : Prop :=
  match x.2 with
  | .ret status => m' = if status.ok then m.done x.1 else m
  | .raise _ => m' = m
  | .stopped => m' = m ∨ m' = m.done x.1

variable {m : Catalog} {x : SessionCall × Outcome Exn Status}

/-- Nothing has been done, and nothing was to be done if OK has been reported. -/
theorem follows_self
    (h : ∀ status, x.2 = .ret status → status.ok = true → m.done x.1 = m) : m.Follows x m := by
  rcases x with ⟨call, status | exn | _⟩
  · change m = if status.ok = true then m.done call else m
    split_ifs with hok
    · exact (h status rfl hok).symm
    · rfl
  · rfl
  · exact Or.inl rfl

/-- All has been done, and nothing but OK has been reported. -/
theorem follows_done (h : x.2 = .stopped ∨ ∃ status, x.2 = .ret status ∧ status.ok = true) :
    m.Follows x (m.done x.1) := by
  rcases x with ⟨call, status | exn | _⟩
  · obtain ⟨status', hret, hok⟩ := h.resolve_left fun heq => by cases heq
    obtain rfl := Outcome.ret.inj hret
    exact (if_pos hok).symm
  · rcases h with h | ⟨status', h, -⟩ <;> cases h
  · exact Or.inr rfl

end Catalog

/-- The name that a call is about. -/
def SessionCall.subject : SessionCall → Option Bytes
  | .createCollection name => some name
  | .dropCollection name => some name
  | .collection c _ => some c.name_
  | _ => none

namespace SessionCall

variable {codec : Codec} {db : Database} {m : Catalog} {n : Bytes} {call : SessionCall}

/-- A call does nothing to the documents of other names. -/
theorem done_of_ne (h : call.subject ≠ some n) : m.done call n = m n := by
  cases call with
  | createCollection name => exact Function.update_of_ne (fun heq => h (congrArg some heq.symm)) _ _
  | dropCollection name => exact Function.update_of_ne (fun heq => h (congrArg some heq.symm)) _ _
  | collection c call => exact Function.update_of_ne (fun heq => h (congrArg some heq.symm)) _ _
  | _ => rfl

/-- And no call of the engine does. -/
theorem spares_made (hn : ¬index_delimiter_ <:+: n) (h : call.subject ≠ some n) :
    (call.made codec db).Uses (Call.Spares n) := by
  have hmap {α β : Type} {f : α → β} {p : Engine α} (hp : p.Uses (Call.Spares n)) :
      (f <$> p).Uses (Call.Spares n) := by
    rw [map_eq_pure_bind]
    exact Prog.Uses.bind hp fun _ => Prog.uses_pure _
  cases call with
  | «open» => exact Database.spares_open
  | close => exact Database.spares_close hn
  | createCollection name =>
    have hne : n ≠ name := fun heq => h (congrArg some heq.symm)
    refine Prog.Uses.bind (Prog.Uses.bind (Prog.uses_perform.mpr fun _ htouches => hne htouches.symm)
      fun r => Prog.uses_ofExcept r) fun status => ?_
    split_ifs
    · exact Prog.Uses.bind (Database.spares_erase hn) fun _ => Prog.uses_pure _
    · trivial
  | dropCollection name =>
    have hne : n ≠ name := fun heq => h (congrArg some heq.symm)
    exact Database.uses_dropCollection.mono fun x hx => Call.spares_of_within hx hne hn
  | getCollection name => exact hmap Database.spares_getCollection
  | collection c call =>
    have hne : n ≠ c.name_ := fun heq => h (congrArg some heq.symm)
    refine hmap (Prog.Uses.mono ?_ fun x hx => Call.spares_of_within hx hne hn)
    cases call with
    | document call => exact call.uses_perform
    | createIndex index => exact (Collection.uses_createIndex none index).mono fun x hx => hx.within
    | deleteIndex index => exact (Collection.uses_deleteIndex index).mono fun x hx => hx.within

/-- **What has become of the documents of a name** by a call: nothing, or all that was to be
done. -/
def SettledAt (codec : Codec) (m : Catalog) (call : SessionCall) (n : Bytes)
    (outcome : Outcome Exn (Status × Database)) (e : StorageEngine) : Prop :=
  Shows codec (m n) n e ∧ (∀ x, outcome = .ret x → x.1.ok = true → m.done call n = m n) ∨
    Shows codec (m.done call n) n e ∧ (outcome = .stopped ∨ ∃ x, outcome = .ret x ∧ x.1.ok = true)

/-- **A call is all or nothing** to the documents of the name that it is about. -/
theorem settledAt_subject {w w' : World} {outcome : Outcome Exn (Status × Database)}
    (hw : w.engine.Rooted) (hn : ¬index_delimiter_ <:+: n)
    (hshows : Shows codec (m n) n w.engine.opened) (hsubject : call.subject = some n)
    (hrun : (call.made codec db).run w = (outcome, w'))
    (hdefined : ∀ u, outcome ≠ .raise (.undefined u)) :
    SettledAt codec m call n outcome w'.engine.opened := by
  cases call with
  | createCollection name =>
    obtain rfl := Option.some.inj hsubject
    rcases Database.createCollection_ends hw hn hrun with ⟨hsame, hbad⟩ | ⟨hempty, hends⟩
    · refine Or.inl ⟨hshows.congr hsame, fun x hx hok => ?_⟩
      exact absurd hok (by rw [hbad x hx]; decide)
    · refine Or.inr ⟨?_, hends⟩
      rw [Catalog.done, Function.update_self]
      exact shows_empty hempty
  | dropCollection name =>
    obtain rfl := Option.some.inj hsubject
    rcases Database.dropCollection_ends hw hn hrun hdefined with ⟨hsame, hbad⟩ | ⟨hgone, hends⟩
    · refine Or.inl ⟨hshows.congr hsame, fun x hx hok => ?_⟩
      exact absurd hok (by rw [hbad x hx]; decide)
    · refine Or.inr ⟨?_, Or.inr hends⟩
      rw [Catalog.done, Function.update_self]
      intro hmem
      rw [StorageEngine.mem_iff_contents, hgone] at hmem
      cases hmem
  | collection c call =>
    obtain rfl := Option.some.inj hsubject
    rw [made, Engine.run, Prog.run_map] at hrun
    obtain ⟨rfl, rfl⟩ := Prod.mk.inj hrun
    rcases hcall : ((call.operation c).perform codec).run w with ⟨outcome, w'⟩
    have hnext := hshows.next_opened hn hw hcall
    rw [Engine.run] at hcall
    rw [SettledAt, Catalog.done, Catalog.edit_self, hcall]
    rcases outcome with status | exn | _
    · rcases hok : status.ok with _ | _
      · refine Or.inl ⟨?_, fun x hx hx' => ?_⟩
        · simp only [DocumentMap.next, hok, Bool.false_eq_true, if_false, Option.map_id'] at hnext
          exact hnext
        · obtain rfl := Outcome.ret.inj hx
          cases hok.symm.trans hx'
      · refine Or.inr ⟨?_, Or.inr ⟨_, rfl, hok⟩⟩
        simp only [DocumentMap.next, hok, if_true] at hnext
        exact hnext
    · simp only [DocumentMap.next, Option.map_id'] at hnext
      exact Or.inl ⟨hnext, fun x hx => by cases hx⟩
    · simp only [DocumentMap.next, Option.map_id'] at hnext
      exact Or.inl ⟨hnext, fun x hx => by cases hx⟩
  | _ => cases hsubject

/-- **A call leaves a catalog** that has what is left of the one name it is about, and is as it was
of all others. -/
theorem isOf_of_subject {m' : Catalog} {w w' : World} {outcome : Outcome Exn (Status × Database)}
    (hw : w.engine.Rooted) (hm : m.IsOf codec w.engine.opened)
    (hrun : (call.made codec db).run w = (outcome, w'))
    (hsame : ∀ n, call.subject ≠ some n → m' n = m n)
    (hself : ∀ n, call.subject = some n → ¬index_delimiter_ <:+: n →
      Shows codec (m' n) n w'.engine.opened) : m'.IsOf codec w'.engine.opened := by
  intro n hn
  by_cases hsubject : call.subject = some n
  · exact hself n hsubject hn
  · rw [hsame n hsubject]
    exact (hm n hn).congr (Engine.contents_opened_of_run (spares_made hn hsubject) hw hrun)

/-- What a step of a session does is what is left of the database. -/
theorem perform_eq_map_made : call.perform codec db = Prod.snd <$> call.made codec db := by
  cases call with
  | getCollection name =>
    rw [made, Functor.map_map]
    rfl
  | collection c call =>
    rw [made, Functor.map_map, map_eq_pure_bind]
    rfl
  | _ => rfl

end SessionCall

namespace Session

variable {codec : Codec} {s s' : Session} {m : Catalog} {n : Bytes} {e : StorageEngine}
  {x : SessionCall × Outcome Exn Status}

/-- Where the process has died, what was on the path is left. -/
theorem contents_left (he : e.Rooted) (outcome : Outcome Exn (Status × Database)) :
    (s.left e outcome).engine.opened.contents n = e.opened.contents n := by
  rcases outcome with _ | _ | _
  · rfl
  · rfl
  · exact StorageEngine.contents_crashed he

theorem rooted_left (he : e.Rooted) (outcome : Outcome Exn (Status × Database)) :
    (s.left e outcome).engine.Rooted := by
  rcases outcome with _ | _ | _
  · exact he
  · exact he
  · exact StorageEngine.rooted_crashed he

/-- **A call does to the documents what it is to do, or nothing.** The first only if it may have
been done for all the caller hears, the second only if it may not have been. -/
theorem follows_of_run {w w' : World} {call : SessionCall} {db : Database}
    {outcome : Outcome Exn (Status × Database)} {report : Outcome Exn Status}
    (hw : w.engine.Rooted) (hm : m.IsOf codec w.engine.opened)
    (hrun : (call.made codec db).run w = (outcome, w'))
    (hdefined : ∀ u, outcome ≠ .raise (.undefined u))
    (hreport : report = outcome.map Prod.fst ∨ report = .stopped) :
    ∃ m', m.Follows (call, report) m' ∧ m'.IsOf codec w'.engine.opened := by
  have hof_report {status : Status} (h : report = .ret status) :
      ∃ y, outcome = .ret y ∧ y.1 = status := by
    rcases hreport with hreport | hreport
    · rcases outcome with y | exn | _
      · exact ⟨y, rfl, Outcome.ret.inj (hreport.symm.trans h)⟩
      · cases hreport.symm.trans h
      · cases hreport.symm.trans h
    · cases hreport.symm.trans h
  rcases hsubject : call.subject with _ | n
  · -- there is nothing to be done
    have hsame : m.done call = m := funext fun n => SessionCall.done_of_ne (by rw [hsubject]; simp)
    exact ⟨m, Catalog.follows_self fun _ _ _ => hsame, SessionCall.isOf_of_subject hw hm hrun
      (fun _ _ => rfl) fun n h => by cases hsubject.symm.trans h⟩
  by_cases hn : index_delimiter_ <:+: n
  · -- what is done does not count
    have hnone (n' : Bytes) (h : call.subject = some n') : index_delimiter_ <:+: n' :=
      Option.some.inj (hsubject.symm.trans h) ▸ hn
    by_cases hok : ∃ status, report = .ret status ∧ status.ok = true
    · exact ⟨m.done call, Catalog.follows_done (Or.inr hok), SessionCall.isOf_of_subject hw hm hrun
        (fun _ => SessionCall.done_of_ne) fun n' h hn' => absurd (hnone n' h) hn'⟩
    · exact ⟨m, Catalog.follows_self fun status h h' => absurd ⟨status, h, h'⟩ hok,
        SessionCall.isOf_of_subject hw hm hrun (fun _ _ => rfl)
          fun n' h hn' => absurd (hnone n' h) hn'⟩
  rcases SessionCall.settledAt_subject hw hn (hm n hn) hsubject hrun hdefined with
    ⟨hshows, hmissed⟩ | ⟨hshows, hends⟩
  · refine ⟨m, Catalog.follows_self fun status h hok => ?_,
      SessionCall.isOf_of_subject hw hm hrun (fun _ _ => rfl) fun n' h _ => ?_⟩
    · obtain ⟨y, hret, rfl⟩ := hof_report h
      funext n'
      by_cases hne : call.subject = some n'
      · obtain rfl := Option.some.inj (hsubject.symm.trans hne)
        exact hmissed y hret hok
      · exact SessionCall.done_of_ne hne
    · obtain rfl := Option.some.inj (hsubject.symm.trans h)
      exact hshows
  · refine ⟨m.done call, Catalog.follows_done ?_, SessionCall.isOf_of_subject hw hm hrun
      (fun _ => SessionCall.done_of_ne) fun n' h _ => ?_⟩
    · rcases hreport with hreport | hreport
      · rcases hends with rfl | ⟨y, rfl, hok⟩
        · exact Or.inl hreport
        · exact Or.inr ⟨y.1, hreport, hok⟩
      · exact Or.inl hreport
    · obtain rfl := Option.some.inj (hsubject.symm.trans h)
      exact hshows

/-- **A step goes on as the catalog may.** -/
theorem LivesOn.follows (h : s.LivesOn codec x s') (hs : s.engine.Rooted)
    (hm : m.IsOf codec s.engine.opened) :
    s'.engine.Rooted ∧ ∃ m', m.Follows x m' ∧ m'.IsOf codec s'.engine.opened := by
  obtain ⟨-, fates, outcome, w', hrun, hdefined, hleft⟩ := h
  have hrooted : w'.engine.Rooted := by
    have hrooted := rooted_run (p := x.1.made codec s.database) (w := ⟨s.engine, fates⟩) hs
    rwa [hrun] at hrooted
  have hreport := hleft.imp And.left And.left
  obtain ⟨m', hfollows, hm'⟩ := follows_of_run hs hm hrun hdefined hreport
  -- what is left is what the call left
  obtain ⟨outcome', rfl⟩ : ∃ outcome', s' = s.left w'.engine outcome' := by
    rcases hleft with ⟨-, hleft⟩ | ⟨-, hleft⟩
    · exact ⟨outcome, hleft⟩
    · exact ⟨.stopped, hleft⟩
  exact ⟨rooted_left hrooted outcome', m', hfollows, fun n hn =>
    (hm' n hn).congr (contents_left hrooted outcome')⟩

/-- **A catalog follows a session that may die**, call by call. -/
theorem exists_isOf_of_lives {history : List (SessionCall × Outcome Exn Status)}
    (h : History.Run (LivesOn codec) .new history s) :
    s.engine.Rooted ∧
      ∃ m, History.Run Catalog.Follows .fresh history m ∧ m.IsOf codec s.engine.opened := by
  induction h with
  | nil => exact ⟨StorageEngine.rooted_unopened, .fresh, .nil, Catalog.isOf_fresh codec⟩
  | snoc _ hlast ih =>
    obtain ⟨hrooted, m, hrun, hm⟩ := ih
    obtain ⟨hrooted', m', hfollows, hm'⟩ := hlast.follows hrooted hm
    exact ⟨hrooted', m', hrun.snoc hfollows, hm'⟩

/-- **What the process has reported survives it**: after any calls, with any refusals in them and
with the process dying at any moment, any number of times, the documents that are there when the
path is opened are those of a catalog that follows the calls. What was reported OK is done, what
was reported to have failed is not, and the call that the process died in is done or is not. -/
theorem catalog_of_lives {history : List (SessionCall × Outcome Exn Status)}
    (h : History.Run (LivesOn codec) .new history s) :
    ∃ m, History.Run Catalog.Follows .fresh history m ∧ ∀ n, ¬index_delimiter_ <:+: n →
      (n ∈ s.engine.opened.columnFamilies_ ↔ (m n).isSome = true) ∧
      ∀ id, (seen codec ⟨n⟩ s.engine.opened id).map Document.data_ =
        (m n).bind fun docs => docs id := by
  obtain ⟨-, m, hrun, hm⟩ := exists_isOf_of_lives h
  exact ⟨m, hrun, fun n hn => (hm n hn).reads⟩

/-- What a call reports where every call to RocksDB goes through. -/
def report (codec : Codec) (s : Session) (call : SessionCall) : Outcome Exn Status :=
  ((call.made codec s.database).run (.calm s.engine)).1.map Prod.fst

/-- A call that returns is a step. -/
theorem LivesOn.after {call : SessionCall} {status : Status}
    (h : s.returns codec call = true ∧ s.report codec call = .ret status) :
    s.LivesOn codec (call, .ret status) (s.after codec call) := by
  obtain ⟨hcall, hreport⟩ := h
  rw [report] at hreport
  rcases hrun : (call.made codec s.database).run (.calm s.engine) with ⟨y | exn | _, w⟩
  · rw [hrun] at hreport
    refine ⟨?_, Stream'.const .ok, _, _, hrun, fun u h => (by cases h), Or.inl ⟨hreport.symm, ?_⟩⟩
    · rintro c call' rfl
      exact of_decide_eq_true (Bool.and_eq_true_iff.mp hcall).1
    · rw [Engine.run] at hrun
      rw [Session.after, SessionCall.perform_eq_map_made, Engine.run, Prog.run_map, hrun]
      rfl
  · rw [hrun] at hreport
    cases hreport
  · rw [hrun] at hreport
    cases hreport

/-- The process in which a document has been stored. -/
def storingPlain : Session := Session.new.afterAll .standard
  [.open, .createCollection letterC.name_, .collection letterC (.document createPlain)]

/-- What is left when it dies in the drop of the collection, at the second call of the engine. -/
def droppingPlain : Outcome Exn (Status × Database) × World :=
  ((SessionCall.dropCollection letterC.name_).made .standard storingPlain.database).run
    ⟨storingPlain.engine, Stream'.cons .ok (Stream'.const .stop)⟩

/-- The document has been stored, the collection was to be dropped, and the document is there. -/
theorem catalog_of_lives_dropping : ∃ m data, History.Run Catalog.Follows .fresh
    [(.open, .ret .OK), (.createCollection letterC.name_, .ret .OK),
      (.collection letterC (.document createPlain), .ret .OK),
      (.dropCollection letterC.name_, .stopped)] m ∧
    (m letterC.name_).bind (fun docs => docs (Bytes.ofText "a")) = some data := by
  have hfacts :
      (Session.new.returns .standard .open = true ∧
        Session.new.report .standard .open = .ret .OK) ∧
      ((Session.new.afterAll .standard [.open]).returns .standard
          (.createCollection letterC.name_) = true ∧
        (Session.new.afterAll .standard [.open]).report .standard
          (.createCollection letterC.name_) = .ret .OK) ∧
      ((Session.new.afterAll .standard [.open, .createCollection letterC.name_]).returns .standard
          (.collection letterC (.document createPlain)) = true ∧
        (Session.new.afterAll .standard [.open, .createCollection letterC.name_]).report .standard
          (.collection letterC (.document createPlain)) = .ret .OK) ∧
      droppingPlain.1.map Prod.fst = .stopped ∧
      ((restarted droppingPlain.2.engine).engine.opened.document .standard letterC.name_
        (Bytes.ofText "a")).isSome = true := by
    decide +kernel
  obtain ⟨hopen, hcreate, hstore, hdrop, hsome⟩ := hfacts
  have hdies : storingPlain.LivesOn .standard (.dropCollection letterC.name_, .stopped)
      (restarted droppingPlain.2.engine) := by
    refine ⟨fun c call h => (by cases h), _, _, _, rfl, fun u h => ?_, Or.inr ⟨rfl, rfl⟩⟩
    change droppingPlain.1 = _ at h
    rw [h] at hdrop
    cases hdrop
  have hcreated := (History.Run.nil.snoc (LivesOn.after hopen)).snoc (LivesOn.after hcreate)
  obtain ⟨m, hrun, hm⟩ := catalog_of_lives ((hcreated.snoc (LivesOn.after hstore)).snoc hdies)
  obtain ⟨data, hdata⟩ := Option.isSome_iff_exists.mp hsome
  refine ⟨m, data.data_, hrun, ((hm letterC.name_ (by decide)).2 (Bytes.ofText "a")).symm.trans ?_⟩
  rw [seen_eq, hdata]
  rfl

end Session

end AnuDB
