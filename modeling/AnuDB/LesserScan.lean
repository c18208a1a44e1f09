import AnuDB.Import
import AnuDB.JsonFormat
import AnuDB.Listings
import AnuDB.Query

/-!
# Does `$lt` stay inside its keys?

For each key it visits, `fetchDocIdsForLesser` reads bytes up to a `#`, and nothing else ends that
loop. The keys of an index have one: between the key of the value and the id. But a family is an
index by its name only, and nothing keeps a collection from having such a name. What is stored in
one goes under the ids of its documents, and `$lt` on the collection and the field the name is made
of reads these (`AnuDB.StorageEngine.staysInKeys_iff`).

So the scan is as safe as the names are. While every document that is stored in a collection whose
name has `__index__` in it has an id with a `#`, every key in every such family has one, in memory
and on the path (`AnuDB.StorageEngine.Hashed`): no other call puts keys there that have none. Then
`$lt` stays inside its keys, in every state that is reached (`AnuDB.staysInKeys_of_run`).
-/

namespace AnuDB

open Effect

/-! ### The inner loop -/

namespace StorageEngine

variable {e : StorageEngine}

/-- In the families that are named like an index every key has a `#`. -/
def HashedFamilies (m : ColumnFamilies) : Prop :=
  ∀ n cf, m[n]? = some cf → index_delimiter_ <:+: n → ∀ key ∈ cf, hash ∈ key

theorem hashedFamilies_empty : HashedFamilies ∅ := by
  intro n cf hcf
  rw [Std.ExtTreeMap.getElem?_empty] at hcf
  cases hcf

theorem HashedFamilies.insert {m : ColumnFamilies} (h : HashedFamilies m) {n : Bytes}
    {cf : ColumnFamily} (hcf : index_delimiter_ <:+: n → ∀ key ∈ cf, hash ∈ key) :
    HashedFamilies (m.insert n cf) := by
  intro n' cf' hcf'
  rw [Std.ExtTreeMap.getElem?_insert] at hcf'
  split_ifs at hcf' with hn
  · obtain rfl := Std.LawfulEqCmp.eq_of_compare hn
    obtain rfl := Option.some.inj hcf'
    exact hcf
  · exact h n' cf' hcf'

theorem HashedFamilies.erase {m : ColumnFamilies} (h : HashedFamilies m) (n : Bytes) :
    HashedFamilies (m.erase n) := by
  intro n' cf' hcf'
  rw [Std.ExtTreeMap.getElem?_erase] at hcf'
  split_ifs at hcf'
  exact h n' cf' hcf'

/-- **The keys of an engine have their `#`**, in memory and on the path. -/
structure Hashed (e : StorageEngine) : Prop where
  /-- In the families a handle is held of. -/
  held : HashedFamilies e.columnFamilies_
  /-- On the path. -/
  onDisk : HashedFamilies e.disk

namespace Hashed

theorem withFamilies (h : e.Hashed) {m : ColumnFamilies} (hm : HashedFamilies m) :
    (e.withFamilies m).Hashed := by
  rw [StorageEngine.withFamilies]
  split_ifs with hdb
  · exact ⟨hm, h.onDisk⟩
  · exact h

/-- **A write keeps the keys hashed** if it does not put one without a `#` into a family that is
named like an index. -/
theorem apply (h : e.Hashed) {x : Write}
    (hx : index_delimiter_ <:+: x.family → x.family ∈ e.columnFamilies_ → x.value.isSome = true →
      hash ∈ x.key) : (e.apply x).Hashed := by
  rw [StorageEngine.apply]
  rcases hcf : e.columnFamilies_[x.family]? with _ | cf
  · exact h
  · refine h.withFamilies (h.held.insert fun hindex key hkey => ?_)
    have hbefore := h.held x.family cf hcf hindex
    have hmem : x.family ∈ e.columnFamilies_ :=
      Std.ExtTreeMap.mem_iff_isSome_getElem?.mpr (by rw [hcf]; rfl)
    rw [Std.ExtTreeMap.mem_iff_isSome_getElem?, Write.getElem?_change] at hkey
    split_ifs at hkey with hself
    · exact hself ▸ hx hindex hmem hkey
    · exact hbefore key (Std.ExtTreeMap.mem_iff_isSome_getElem?.mpr hkey)

theorem applyAll (h : e.Hashed) {ws : List Write}
    (hws : ∀ x ∈ ws, index_delimiter_ <:+: x.family → x.family ∈ e.columnFamilies_ →
      x.value.isSome = true → hash ∈ x.key) : (e.applyAll ws).Hashed := by
  induction ws generalizing e with
  | nil => exact h
  | cons x ws ih =>
    refine ih (h.apply (hws x List.mem_cons_self)) fun y hy hindex hmem => ?_
    exact hws y (List.mem_cons_of_mem x hy) hindex ((mem_applyAll [x]).mp hmem)

end Hashed

end StorageEngine

/-! ### The calls -/

/-- A call that puts no key without a `#` into a family that is named like an index. -/
def Call.Hashes : Call → Prop
  | .put collection key _ => index_delimiter_ <:+: collection → StorageEngine.hash ∈ key
  | _ => True

theorem Call.Arranges.hashes {x : Call} (h : x.Arranges) : x.Hashes := by
  cases x <;> trivial

namespace StorageEngine.Hashed

variable {e : StorageEngine}

/-- **Every such call keeps the keys hashed.** -/
theorem exec (h : e.Hashed) {x : Call} (hx : x.Hashes) (fault : Option Bytes) :
    (e.exec fault x).2.Hashed := by
  cases x with
  | «open» =>
    simp only [StorageEngine.exec, StorageEngine.open]
    rcases fault with _ | text
    · split_ifs
      · exact h
      · exact ⟨h.onDisk.insert fun _ key hkey => absurd hkey Std.ExtTreeMap.not_mem_empty, h.onDisk⟩
      · exact ⟨h.onDisk, h.onDisk⟩
    · exact h
  | close =>
    simp only [StorageEngine.exec, StorageEngine.close]
    have hdisk : HashedFamilies (if e.db_ = .opened then e.columnFamilies_ else e.disk) := by
      split_ifs
      · exact h.held
      · exact h.onDisk
    rcases hdb : e.db_ with _ | _ | _ | _ <;> rw [hdb] at hdisk
    · exact h
    · exact h
    · cases fault <;> exact ⟨hashedFamilies_empty, hdisk⟩
    · cases fault <;> exact ⟨hashedFamilies_empty, hdisk⟩
  | createCollection name =>
    rcases e.createCollection_cases fault name with ⟨hc, -⟩ | ⟨status, hc, -⟩ | ⟨hc, -⟩
    · rwa [StorageEngine.exec, hc]
    · rwa [StorageEngine.exec, hc]
    · rw [StorageEngine.exec, hc]
      refine h.withFamilies (h.held.insert fun _ key hkey => ?_)
      exact absurd hkey Std.ExtTreeMap.not_mem_empty
  | dropCollection name =>
    simp only [StorageEngine.exec, StorageEngine.dropCollection]
    split_ifs
    · exact h
    · cases fault with
      | some text => exact h
      | none => exact h.withFamilies (h.held.erase name)
    · exact h
  | put collection key value =>
    -- what is put takes effect as a write does
    have hwrite := h.apply (x := ⟨collection, key, some value⟩) fun hindex _ _ => hx hindex
    simp only [StorageEngine.exec, StorageEngine.put]
    rw [StorageEngine.apply] at hwrite
    rcases hcf : e.columnFamilies_[collection]? with _ | cf <;> rw [hcf] at hwrite
    · exact h
    · cases fault with
      | some text => exact h
      | none => exact hwrite
  | remove collection key =>
    have hwrite := h.apply (x := ⟨collection, key, none⟩) fun _ _ hvalue => absurd hvalue (by simp)
    simp only [StorageEngine.exec, StorageEngine.remove]
    rw [StorageEngine.apply] at hwrite
    rcases hcf : e.columnFamilies_[collection]? with _ | cf <;> rw [hcf] at hwrite
    · exact h
    · cases fault with
      | some text => exact h
      | none => exact hwrite
  | _ => exact h

theorem run {α : Type} {p : Engine α} (hp : p.Uses Call.Hashes) {w : World}
    (h : w.engine.Hashed) : (p.run w).2.engine.Hashed := by
  refine Prog.run_of_uses (I := fun w w' => w.engine.Hashed → w'.engine.Hashed) (fun _ h => h) ?_ ?_
    hp w h
  · exact fun hst htu hs => htu (hst hs)
  · intro x s reply s' hx hhandle hs
    obtain ⟨fault, hexec, -⟩ := World.exists_fault_of_handle hhandle
    have hhashed := hs.exec hx fault
    rwa [hexec] at hhashed

end StorageEngine.Hashed

/-! ### What the calls put -/

/-- The key of an entry has the `#` that separates its parts. -/
theorem Document.EntryAt.hash_mem {doc : Document} {f key : Bytes} (h : doc.EntryAt codec f key) :
    StorageEngine.hash ∈ key := by
  obtain ⟨value, k, -, -, rfl⟩ := h
  refine List.mem_append_left _ (List.mem_append_right k ?_)
  decide

section Calls

variable {codec : Codec} {c : Collection} {w : World}

/-- **A document call keeps the keys hashed** if what it stores in a family that is named like an
index goes under an id with a `#`. -/
theorem StorageEngine.Hashed.document (h : w.engine.Hashed) {call : DocumentCall}
    (hstored : index_delimiter_ <:+: c.name_ → c.name_ ∈ w.engine.columnFamilies_ →
      ∀ doc, call.stored codec c w.engine = some doc → hash ∈ doc.id_) :
    ((call.perform codec c).run w).2.engine.Hashed := by
  rw [DocumentCall.run_engine]
  refine h.applyAll fun x hx hindex hmem hvalue => ?_
  rcases hsteps : call.steps codec c w.engine with _ | steps'
  · rw [DocumentCall.landed_of_steps hsteps] at hx
    exact absurd hx List.not_mem_nil
  · have hstep : .ok x ∈ steps' :=
      (DocumentCall.landed_beginning hsteps).subset (List.mem_map_of_mem hx)
    cases call with
    | delete id =>
      -- a deletion puts nothing
      obtain ⟨doc, -, rfl⟩ := Option.map_eq_some_iff.mp hsteps
      rcases List.mem_append.mp hstep with hentry | hlast
      · obtain ⟨f, -, key, -, rfl⟩ := DocumentCall.mem_entrySteps.mp hentry
        exact absurd hvalue (by simp)
      · obtain rfl := Except.ok.inj (List.mem_singleton.mp hlast)
        exact absurd hvalue (by simp)
    | _ =>
      obtain ⟨doc, hdoc, rfl⟩ := Option.map_eq_some_iff.mp hsteps
      rcases List.mem_append.mp hstep with hentry | hlast
      · obtain ⟨f, -, key, hat, rfl⟩ := DocumentCall.mem_entrySteps.mp hentry
        exact hat.hash_mem
      · obtain rfl := Except.ok.inj (List.mem_singleton.mp hlast)
        exact hstored hindex hmem doc hdoc

theorem hashes_insertIfIndexFieldExists (doc : Document) (index : Bytes) :
    (c.insertIfIndexFieldExists codec doc index).Uses Call.Hashes := by
  rw [Collection.insertIfIndexFieldExists, Collection.entryKey]
  rcases hkey : indexKey codec ((doc.data_.find? index).getD .null) doc.id_ with exn | key
  · exact Prog.uses_raise exn
  · obtain ⟨k, -, rfl⟩ := indexKey_eq_ok_iff.mp hkey
    refine Prog.uses_perform.mpr fun _ => List.mem_append_left _ (List.mem_append_right k ?_)
    decide

/-- Building an index puts entries only. -/
theorem hashes_createIndex (index : Bytes) : (c.createIndex codec none index).Uses Call.Hashes := by
  refine Prog.Uses.bind (Prog.Uses.bind (Prog.uses_perform.mpr trivial) fun r =>
    Prog.uses_ofExcept r) fun _ => Prog.Uses.tryCatch ?_ fun e => Prog.uses_ofExcept _
  refine Prog.Uses.bind (Prog.uses_perform.mpr trivial) fun entries => ?_
  exact Collection.uses_indexEntries (fun doc => hashes_insertIfIndexFieldExists doc index) entries

theorem hashes_destroyAll (collections : List Collection) :
    (Database.destroyAll collections).Uses Call.Hashes := by
  induction collections with
  | nil => trivial
  | cons c collections ih =>
    refine Prog.Uses.bind (Prog.Uses.bind (Prog.uses_perform.mpr trivial) fun indexes => ?_)
      fun _ => ih
    exact (Database.arranges_deleteIndexes indexes).mono fun x hx => hx.hashes

/-! ### Imports -/

/-- The objects an import comes to: one with an `_id` that is no string ends it. -/
def reachedItems (items : List Json) : List Json :=
  (items.filter Json.isObject).takeWhile fun item => (importId 0 0 item).toBool

/-- Whether an item has an id does not depend on how many came before it. -/
theorem toBool_importId_of_ok {successCount failureCount : ℕ} {item : Json} {docId : Bytes}
    (h : importId successCount failureCount item = .ok docId) :
    (importId 0 0 item).toBool = true := by
  rw [importId] at h ⊢
  rcases hfind : item.find? idField with _ | id
  · rfl
  · rw [hfind] at h
    change id.getString = .ok docId at h
    change id.getString.toBool = true
    rw [h]
    rfl

/-- The id an object is stored under that names one with a `#`. -/
theorem hash_mem_of_stored {successCount failureCount : ℕ} {item : Json} {docId id : Bytes}
    (hid : importId successCount failureCount item = .ok docId)
    (hfind : item.find? idField = some (.string id)) (hhash : StorageEngine.hash ∈ id)
    {entropy : Entropy} {doc : Document}
    (hdoc : (DocumentCall.create entropy ⟨docId, item⟩).stored codec c w.engine = some doc) :
    StorageEngine.hash ∈ doc.id_ := by
  have hdocId : id = docId := by
    rw [importId, hfind] at hid
    exact Except.ok.inj hid
  subst hdocId
  have hne : id ≠ [] := List.ne_nil_of_mem hhash
  rcases hwith : (Collection.assignId entropy ⟨id, item⟩).withId with exn | doc'
  · rw [DocumentCall.stored, hwith] at hdoc
    cases hdoc
  · rw [DocumentCall.stored, hwith] at hdoc
    obtain rfl : doc' = doc := Option.some.inj hdoc
    rw [Document.id_of_withId hwith, Collection.assignId, if_neg hne]
    exact hhash

/-- **An import keeps the keys hashed** if the objects it comes to name ids with a `#`, where it
goes to a family that is named like an index. -/
theorem StorageEngine.Hashed.importItems (h : w.engine.Hashed) (entropies : Stream' Entropy)
    (successCount failureCount : ℕ) {items : List Json}
    (hitems : index_delimiter_ <:+: c.name_ → c.name_ ∈ w.engine.columnFamilies_ →
      ∀ item ∈ reachedItems items, ∃ id, item.find? idField = some (.string id) ∧ hash ∈ id) :
    ((c.importItems codec entropies successCount failureCount items).run w).2.engine.Hashed := by
  induction items generalizing entropies successCount failureCount w with
  | nil => exact h
  | cons item items ih =>
    rw [Collection.importItems]
    split_ifs with hobject
    · rw [Engine.run, Prog.run_ofExcept_bind]
      rcases hid : importId successCount failureCount item with exn | docId
      · exact h
      · have hreached : reachedItems (item :: items) = item :: reachedItems items := by
          rw [reachedItems, List.filter_cons_of_pos hobject, List.takeWhile_cons,
            if_pos (toBool_importId_of_ok hid)]
          rfl
        rw [hreached] at hitems
        -- the create of the item, and then the rest, if there is any
        have hcreate : (((DocumentCall.create entropies.head ⟨docId, item⟩).perform codec c).run w
            ).2.engine.Hashed := by
          refine h.document fun hindex hmem doc hdoc => ?_
          obtain ⟨id, hfind, hhash⟩ := hitems hindex hmem item List.mem_cons_self
          exact hash_mem_of_stored hid hfind hhash hdoc
        have hengine := @DocumentCall.run_engine codec c w (.create entropies.head ⟨docId, item⟩)
        rw [DocumentCall.perform, Engine.run, Prog.run_map] at hcreate hengine
        simp only
        rw [Prog.run_bind]
        rcases hrun : Prog.run World.handle
          (c.createDocument codec entropies.head ⟨docId, item⟩) w with ⟨⟨status, doc⟩ | exn | _, w'⟩
          <;> rw [hrun] at hcreate hengine
        · have hrest (n m : ℕ) :
              ((c.importItems codec entropies.tail n m items).run w').2.engine.Hashed := by
            refine ih hcreate _ _ _ fun hindex hmem i hi => ?_
            -- the create has left the collection where it was
            have hbefore : c.name_ ∈ w.engine.columnFamilies_ := by
              change w'.engine = _ at hengine
              rwa [hengine, StorageEngine.mem_applyAll] at hmem
            exact hitems hindex hbefore i (List.mem_cons_of_mem item hi)
          simp only
          split_ifs
          · exact hrest _ _
          · exact hrest _ _
        · exact hcreate
        · exact hcreate
    · refine ih h _ _ _ ?_
      rwa [reachedItems, List.filter_cons_of_neg hobject] at hitems

theorem StorageEngine.Hashed.importFromJsonFile (h : w.engine.Hashed) (text : JsonText)
    (entropies : Stream' Entropy) (filePath : Bytes) {file : Option Bytes}
    (hfile : index_delimiter_ <:+: c.name_ → c.name_ ∈ w.engine.columnFamilies_ → ∀ items,
      file.map text.read = some (.ok (.array items)) → ∀ item ∈ reachedItems items,
        ∃ id, item.find? idField = some (.string id) ∧ hash ∈ id) :
    ((c.importFromJsonFile text codec entropies filePath file).run w).2.engine.Hashed := by
  rcases file with _ | contents
  · exact h
  · have hcontents : ((c.importContents text codec entropies filePath contents).run w
        ).2.engine.Hashed := by
      rw [Collection.importContents, Engine.run, Prog.run_ofExcept_bind]
      rcases hread : text.read contents with what | jsonData
      · exact h
      · simp only [Except.mapError]
        cases jsonData with
        | array items =>
          have hitems : ((c.importItems codec entropies 0 0 items).run w).2.engine.Hashed :=
            h.importItems entropies 0 0 fun hindex hmem =>
              hfile hindex hmem items (by rw [Option.map_some, hread])
          rw [Prog.run_bind]
          rcases hrun : Prog.run World.handle (c.importItems codec entropies 0 0 items) w with
            ⟨_ | _ | _, w'⟩ <;> rw [Engine.run, hrun] at hitems <;> exact hitems
        | _ => exact h
    rw [Collection.importFromJsonFile, Engine.run, Prog.run_tryCatch]
    rcases hrun : Prog.run World.handle (c.importContents text codec entropies filePath contents) w
      with ⟨_ | exn | _, w'⟩ <;> rw [Engine.run, hrun] at hcontents
    · exact hcontents
    · cases exn <;> exact hcontents
    · exact hcontents

end Calls

/-! ### Runs -/

/-- The calls that change something: those of a session, and imports into a collection that was
handed out. An import by the name of the collection is `getCollection` and then one of these. -/
inductive ApiCall where
  /-- A call of a session. -/
  | session (call : SessionCall) : ApiCall
  /-- `importFromJsonFile` on a collection. -/
  | importFromJsonFile (c : Collection) (entropies : Stream' Entropy) (filePath : Bytes)
      (file : Option Bytes) : ApiCall

/-- **A step**: a call that comes back. -/
def ApiStep (text : JsonText) (codec : Codec) (s : Session) (call : ApiCall) (s' : Session) :
    Prop :=
  match call with
  | .session call => s.Step codec call s'
  | .importFromJsonFile c entropies filePath file =>
    c ∈ s.database.collections_ ∧ ∃ fates status w',
      (c.importFromJsonFile text codec entropies filePath file).run ⟨s.engine, fates⟩ =
        (.ret status, w') ∧ s' = ⟨s.database, w'.engine⟩

/-- **What the call stores has ids with a `#`**, where it goes to a family that is named like an
index. -/
def ApiCall.StoresHashed (text : JsonText) (codec : Codec) (e : StorageEngine) : ApiCall → Prop
  | .session (.collection c (.document call)) =>
    index_delimiter_ <:+: c.name_ → c.name_ ∈ e.columnFamilies_ →
      ∀ doc, call.stored codec c e = some doc → StorageEngine.hash ∈ doc.id_
  | .session _ => True
  | .importFromJsonFile c _ _ file =>
    index_delimiter_ <:+: c.name_ → c.name_ ∈ e.columnFamilies_ →
      ∀ items, file.map text.read = some (.ok (.array items)) →
        ∀ item ∈ reachedItems items,
          ∃ id, item.find? idField = some (.string id) ∧ StorageEngine.hash ∈ id

section Runs

variable {text : JsonText} {codec : Codec} {s s' : Session}

/-- **A call keeps the keys hashed** if what it stores is. -/
theorem StorageEngine.Hashed.step {call : ApiCall} (h : s.engine.Hashed)
    (hcall : call.StoresHashed text codec s.engine) (hstep : ApiStep text codec s call s') :
    s'.engine.Hashed := by
  have huses {p : Engine Database} {fates : Stream' Fate} {outcome : Outcome Exn Database}
      {w' : World} (hp : p.Uses Call.Hashes) (hrun : p.run ⟨s.engine, fates⟩ = (outcome, w')) :
      w'.engine.Hashed := by
    have hhashed := StorageEngine.Hashed.run (w := ⟨s.engine, fates⟩) hp h
    rwa [hrun] at hhashed
  cases call with
  | importFromJsonFile c entropies filePath file =>
    obtain ⟨-, fates, status, w', hrun, rfl⟩ := hstep
    have hhashed : ((c.importFromJsonFile text codec entropies filePath file).run
        ⟨s.engine, fates⟩).2.engine.Hashed := by
      refine StorageEngine.Hashed.importFromJsonFile ?_ text entropies filePath hcall
      exact h
    rwa [hrun] at hhashed
  | session call =>
    obtain ⟨-, fates, outcome, w', hrun, hengine, -⟩ := hstep
    rw [← hengine]
    have harranges {p : Engine (Status × Database)} (hp : p.Uses Call.Arranges) :
        (Prod.snd <$> p).Uses Call.Hashes := Prog.uses_map.mpr (hp.mono fun x hx => hx.hashes)
    cases call with
    | «open» =>
      refine huses (Prog.uses_map.mpr ?_) hrun
      exact Prog.Uses.bind (Prog.uses_perform.mpr trivial) fun _ => Prog.uses_pure _
    | close =>
      refine huses (Prog.uses_map.mpr ((hashes_destroyAll _).bind fun _ => ?_)) hrun
      exact Prog.Uses.bind (Prog.Uses.bind (Prog.uses_perform.mpr trivial) fun r =>
        Prog.uses_ofExcept r) fun _ => trivial
    | createCollection name => exact huses (harranges Database.arranges_createCollection) hrun
    | dropCollection name => exact huses (harranges Database.arranges_dropCollection) hrun
    | getCollection name =>
      refine huses (Prog.uses_map.mpr ?_) hrun
      exact Database.arranges_getCollection.mono fun x hx => hx.hashes
    | collection c call =>
      cases call with
      | createIndex index =>
        exact huses ((hashes_createIndex index).bind fun _ => Prog.uses_pure _) hrun
      | deleteIndex index =>
        refine huses (Prog.Uses.bind ?_ fun _ => Prog.uses_pure _) hrun
        exact Prog.uses_perform.mpr trivial
      | document call =>
        have hhashed := StorageEngine.Hashed.document (w := ⟨s.engine, fates⟩) h hcall
        change Prog.run World.handle ((fun _ => s.database) <$> call.perform codec c) _ = _ at hrun
        rw [Prog.run_map] at hrun
        obtain ⟨-, rfl⟩ := Prod.mk.inj hrun
        exact hhashed

end Runs

end AnuDB
