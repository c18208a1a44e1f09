import AnuDB.DocumentCalls

/-!
# What a collection's methods may touch

Every engine call names the family it works on, so what a program may change can be read
off the calls it may make, without running it: that is `Effect.Prog.Uses`, and
`AnuDB.Engine.contents_run` is its frame – a family no call of the program touches has
the contents it had, however the run ends.

The methods of a collection touch its own family and families whose names it has joined
with a field, and no others (`AnuDB.Call.Within`). Those that work on an index leave the
family of the documents alone.
-/

namespace AnuDB

open Effect

/-- The call may change the family of that name. -/
def Call.Touches (n : Bytes) : Call → Prop
  | .open => True
  | .close => True
  | .createCollection name => name = n
  | .dropCollection name => name = n
  | .put collection _ _ => collection = n
  | .remove collection _ => collection = n
  | _ => False

/-- The call touches no family but the collection's and those of its indexes. -/
def Call.Within (c : Bytes) (x : Call) : Prop :=
  ∀ n, x.Touches n → n = c ∨ ∃ f, n = indexFamily c f

/-- The call touches no family but those of the collection's indexes. -/
def Call.OnIndexes (c : Bytes) (x : Call) : Prop := ∀ n, x.Touches n → ∃ f, n = indexFamily c f

theorem Call.OnIndexes.within {c : Bytes} {x : Call} (h : x.OnIndexes c) : x.Within c :=
  fun n hn => Or.inr (h n hn)

/-- A call that may change nothing. -/
def Call.Reads (x : Call) : Prop := ∀ n, ¬x.Touches n

theorem Call.Reads.onIndexes {c : Bytes} {x : Call} (h : x.Reads) : x.OnIndexes c :=
  fun n hn => absurd hn (h n)

/-! ### The frame of a call -/

namespace StorageEngine

variable {e : StorageEngine} {n : Bytes}

/-- Families that are replaced, added or removed do not show under another name. -/
theorem contents_withFamilies {m : ColumnFamilies} (h : m[n]? = e.contents n) :
    (e.withFamilies m).contents n = e.contents n := by
  rw [contents, withFamilies]
  split_ifs
  · exact h
  · rfl

theorem contents_insert {name : Bytes} {cf : ColumnFamily} (hne : name ≠ n) :
    (e.withFamilies (e.columnFamilies_.insert name cf)).contents n = e.contents n := by
  refine contents_withFamilies ?_
  rw [Std.ExtTreeMap.getElem?_insert, if_neg fun h => hne (Std.LawfulEqCmp.eq_of_compare h)]
  rfl

theorem contents_erase {name : Bytes} (hne : name ≠ n) :
    (e.withFamilies (e.columnFamilies_.erase name)).contents n = e.contents n := by
  refine contents_withFamilies ?_
  rw [Std.ExtTreeMap.getElem?_erase, if_neg fun h => hne (Std.LawfulEqCmp.eq_of_compare h)]
  rfl

/-- **A call changes only the family it touches.** -/
theorem contents_exec {x : Call} (h : ¬x.Touches n) (fault : Option Bytes) :
    (e.exec fault x).2.contents n = e.contents n := by
  cases x with
  | «open» => exact absurd trivial h
  | close => exact absurd trivial h
  | createCollection name =>
    simp only [exec, createCollection]
    split_ifs
    · rfl
    · rfl
    · cases fault with
      | some text => rfl
      | none => exact contents_insert h
  | dropCollection name =>
    simp only [exec, dropCollection]
    split_ifs
    · rfl
    · cases fault with
      | some text => rfl
      | none => exact contents_erase h
    · rfl
  | put collection key value =>
    simp only [exec, put]
    rcases e.columnFamilies_[collection]? with _ | cf
    · rfl
    · cases fault with
      | some text => rfl
      | none => exact contents_insert h
  | remove collection key =>
    simp only [exec, remove]
    rcases e.columnFamilies_[collection]? with _ | cf
    · rfl
    · cases fault with
      | some text => rfl
      | none => exact contents_insert h
  | _ => rfl

end StorageEngine

/-! ### The frame of a program -/

namespace Engine

variable {α : Type} {p : Engine α} {n : Bytes} {w : World}

/-- **A family no call of a program touches has the contents it had**, however the run
ends. -/
theorem contents_run (h : p.Uses fun x => ¬x.Touches n) :
    (p.run w).2.engine.contents n = w.engine.contents n := by
  refine Prog.run_of_uses (I := fun s t => t.engine.contents n = s.engine.contents n)
    (fun _ => rfl) ?_ ?_ h w
  · intro s t u hst htu
    exact Eq.trans htu hst
  intro x s r s' hx hhandle
  obtain ⟨fault, hexec, -⟩ := World.exists_fault_of_handle hhandle
  have hcontents := StorageEngine.contents_exec (e := s.engine) hx fault
  rwa [hexec] at hcontents

end Engine

/-! ### The methods of a collection -/

theorem Call.reads_getIndexNames (c : Bytes) : (Call.getIndexNames c).Reads := fun _ h => h

theorem Call.reads_get (c key : Bytes) : (Call.get c key).Reads := fun _ h => h

theorem Call.reads_cursor (c : Bytes) (cut : Option ℕ) : (Call.cursor c cut).Reads := fun _ h => h

namespace Collection

variable {codec : Codec} {c : Collection}

theorem uses_deleteIndexes (indexes : List Bytes) :
    (c.deleteIndexes indexes).Uses (Call.OnIndexes c.name_) := by
  induction indexes with
  | nil => trivial
  | cons index indexes ih =>
    refine Prog.Uses.bind (Prog.uses_perform.mpr ?_) fun _ => ih
    rintro n rfl
    exact ⟨index, rfl⟩

/-- The destructor touches index families only. -/
theorem uses_destroy : c.destroy.Uses (Call.OnIndexes c.name_) :=
  Prog.Uses.bind (Prog.uses_perform.mpr (Call.reads_getIndexNames c.name_).onIndexes)
    fun indexes => uses_deleteIndexes indexes

theorem uses_deleteIndex (index : Bytes) :
    (c.deleteIndex index).Uses (Call.OnIndexes c.name_) := by
  refine Prog.uses_perform.mpr ?_
  rintro n rfl
  exact ⟨index, rfl⟩

theorem uses_putIndex (doc : Document) (index : Bytes) :
    (c.insertIfIndexFieldExists codec doc index).Uses (Call.OnIndexes c.name_) := by
  refine Prog.Uses.bind (Prog.uses_ofExcept _) fun key => Prog.uses_perform.mpr ?_
  rintro n rfl
  exact ⟨index, rfl⟩

theorem uses_removeIndex (doc : Document) (index : Bytes) :
    (c.deleteIfIndexFieldExists codec doc index).Uses (Call.OnIndexes c.name_) := by
  refine Prog.Uses.bind (Prog.uses_ofExcept _) fun key => Prog.uses_perform.mpr ?_
  rintro n rfl
  exact ⟨index, rfl⟩

theorem uses_indexEntries {P : Call → Prop} {index : Bytes}
    (h : ∀ doc, (c.insertIfIndexFieldExists codec doc index).Uses P) (entries : List (Bytes × Bytes)) :
    (c.indexEntries codec index entries).Uses P := by
  induction entries with
  | nil => trivial
  | cons entry entries ih =>
    refine Prog.Uses.bind (Prog.uses_ofExcept _) fun doc => ?_
    split_ifs
    · refine Prog.Uses.bind (h doc) fun status => ?_
      split_ifs
      · exact ih
      · trivial
    · exact ih

/-- Creating an index touches index families only. -/
theorem uses_createIndex (cut : Option ℕ) (index : Bytes) :
    (c.createIndex codec cut index).Uses (Call.OnIndexes c.name_) := by
  refine Prog.Uses.bind (Prog.Uses.bind (Prog.uses_perform.mpr ?_) fun r =>
    Prog.uses_ofExcept r) fun _ => Prog.Uses.tryCatch ?_ fun e => Prog.uses_ofExcept _
  · rintro n rfl
    exact ⟨index, rfl⟩
  · exact Prog.Uses.bind (Prog.uses_perform.mpr (Call.reads_cursor c.name_ cut).onIndexes)
      fun entries => uses_indexEntries (fun doc => uses_putIndex doc index) entries

theorem uses_forIndexes {P : Call → Prop} {method : Document → Bytes → Engine Status}
    {doc : Document} (h : ∀ index, (method doc index).Uses P) (indexes : List Bytes) :
    (forIndexes method doc indexes).Uses P := by
  induction indexes with
  | nil => trivial
  | cons index indexes ih =>
    rw [forIndexes]
    split_ifs
    · refine Prog.Uses.bind (h index) fun status => ?_
      split_ifs
      · exact ih
      · trivial
    · exact ih

/-- Creating a document touches its indexes, and then the document's own family. -/
theorem uses_createDocument (entropy : Entropy) (doc : Document) :
    (c.createDocument codec entropy doc).Uses (Call.Within c.name_) := by
  refine Prog.Uses.bind (Prog.uses_ofExcept _) fun doc => Prog.Uses.bind
    (Prog.uses_perform.mpr (Call.reads_getIndexNames c.name_).onIndexes.within) fun indexes => ?_
  have hindexes := uses_forIndexes (fun index => @uses_putIndex codec c doc index) indexes
  refine Prog.Uses.bind (hindexes.mono fun x => Call.OnIndexes.within) fun status => ?_
  split_ifs
  · refine Prog.Uses.bind (Prog.uses_perform.mpr ?_) fun status => trivial
    rintro n rfl
    exact Or.inl rfl
  · trivial

theorem uses_readDocument (id : Bytes) :
    (c.readDocument codec id).Uses (Call.Within c.name_) := by
  refine Prog.Uses.bind
    (Prog.uses_perform.mpr (Call.reads_get c.name_ id).onIndexes.within) fun r => ?_
  cases r with
  | error status => trivial
  | ok serialized =>
    simp only
    cases Document.from_msgpack codec serialized with
    | error exn => exact Prog.Uses.bind (Prog.uses_ofExcept _) fun status => Prog.uses_pure _
    | ok doc => trivial

/-- Deleting a document touches its indexes, and then the document's own family. -/
theorem uses_deleteDocument (id : Bytes) :
    (c.deleteDocument codec id).Uses (Call.Within c.name_) := by
  refine Prog.Uses.bind (uses_readDocument id) fun r => ?_
  rcases r with status | doc
  · trivial
  refine Prog.Uses.bind
    (Prog.uses_perform.mpr (Call.reads_getIndexNames c.name_).onIndexes.within) fun indexes => ?_
  have hindexes := uses_forIndexes (fun index => @uses_removeIndex codec c doc index) indexes
  refine Prog.Uses.bind (hindexes.mono fun x => Call.OnIndexes.within) fun status => ?_
  split_ifs
  · refine Prog.uses_perform.mpr ?_
    rintro n rfl
    exact Or.inl rfl
  · trivial

/-- Updating a document is reading it, and creating it from there on. -/
theorem uses_updateDocument (entropy : Entropy) (id : Bytes) (ops : Json) (upsert : Bool) :
    (c.updateDocument codec entropy id ops upsert).Uses (Call.Within c.name_) := by
  have hcreate (doc : Except Exn Document) : (do
      let doc ← Prog.ofExcept doc
      Prod.fst <$> c.createDocument codec entropy doc : Engine Status).Uses
        (Call.Within c.name_) :=
    Prog.Uses.bind (Prog.uses_ofExcept _) fun doc =>
      Prog.Uses.bind (uses_createDocument entropy doc) fun _ => trivial
  refine Prog.Uses.bind (uses_readDocument id) fun r => ?_
  cases r with
  | error status =>
    simp only
    split_ifs
    · exact hcreate _
    · trivial
  | ok doc => exact hcreate _

end Collection

/-- A document call touches its collection's own family and those of its indexes. -/
theorem DocumentCall.uses_perform {codec : Codec} {c : Collection} (call : DocumentCall) :
    (call.perform codec c).Uses (Call.Within c.name_) := by
  cases call with
  | create entropy doc =>
    exact Prog.Uses.bind (Collection.uses_createDocument entropy doc) fun _ => trivial
  | update entropy id ops upsert => exact Collection.uses_updateDocument entropy id ops upsert
  | delete id => exact Collection.uses_deleteDocument id

end AnuDB
