import AnuDB.IndexDrops
import AnuDB.Lib.Utf8

/-!
# Which texts are UTF-8

Texts travel: an exception's text and a status's message end up in a reply, and a reply that is
not UTF-8 cannot be dumped. The texts of the code itself are ASCII, with the type of a value or
a name in them, so what is thrown is text where the deserialiser throws text
(`AnuDB.Codec.ThrowsText`); and no method of a collection on an open database ends in
undefined behaviour.
-/

namespace AnuDB

open Effect

/-- **What is thrown is text**: an exception, and its text is UTF-8. -/
def Exn.IsText (exn : Exn) : Prop := ∃ what, exn = .exception what ∧ Utf8.Valid what

/-- What a computation throws is text. -/
def ThrowsText {α : Type} (x : Except Exn α) : Prop := ∀ exn, x = .error exn → exn.IsText

/-- The deserialiser throws text. -/
def Codec.ThrowsText (codec : Codec) : Prop := ∀ s, AnuDB.ThrowsText (codec.from_msgpack s)

namespace ThrowsText

variable {α β : Type}

protected theorem ok (a : α) : ThrowsText (.ok a) := fun exn h => by cases h

theorem error {what : Bytes} (h : Utf8.Valid what) :
    ThrowsText (.error (.exception what) : Except Exn α) := by
  intro exn hexn
  obtain rfl := Except.error.inj hexn
  exact ⟨what, rfl, h⟩

protected theorem bind {x : Except Exn α} {f : α → Except Exn β} (hx : ThrowsText x)
    (hf : ∀ a, ThrowsText (f a)) : ThrowsText (x >>= f) := by
  cases x with
  | ok a => exact hf a
  | error exn =>
    intro exn' h
    obtain rfl := Except.error.inj h
    exact hx exn rfl

end ThrowsText

theorem Codec.throwsText_standard : Codec.standard.ThrowsText := by
  intro s exn h
  change Msgpack.parse s = _ at h
  rw [Msgpack.parse] at h
  split at h
  · cases h
  · obtain rfl := Except.error.inj h
    exact ⟨_, rfl, by decide⟩

/-! ### What is thrown by reading a value -/

namespace Json

variable (j : Json)

theorem valid_typeName : Utf8.Valid j.typeName := by
  cases j <;> (rw [typeName]; decide)

theorem throwsText_index (field : Bytes) : ThrowsText (j.index field) := by
  have herror : ThrowsText (.error j.notIndexable : Except Exn Json) :=
    ThrowsText.error (Utf8.Valid.append (by decide) j.valid_typeName)
  cases j with
  | null => exact ThrowsText.ok _
  | object members => exact ThrowsText.ok _
  | _ => exact herror

theorem throwsText_getString : ThrowsText j.getString := by
  have herror : ThrowsText (.error j.notAString : Except Exn Bytes) :=
    ThrowsText.error (Utf8.Valid.append (by decide) j.valid_typeName)
  cases j with
  | string s => exact ThrowsText.ok _
  | _ => exact herror

theorem throwsText_setMember (field : Bytes) (value : Json) :
    ThrowsText (j.setMember field value) := by
  have herror : ThrowsText (.error j.notIndexable : Except Exn Json) :=
    ThrowsText.error (Utf8.Valid.append (by decide) j.valid_typeName)
  cases j with
  | null => exact ThrowsText.ok _
  | object members => exact ThrowsText.ok _
  | _ => exact herror

theorem throwsText_parseValue : ThrowsText (parseValue codec j) := by
  have herror : ThrowsText (.error j.notAString : Except Exn Bytes) :=
    ThrowsText.error (Utf8.Valid.append (by decide) j.valid_typeName)
  cases j with
  | object members => exact herror
  | array items => exact herror
  | _ => exact ThrowsText.ok _

end Json

/-! ### What is thrown by reading a document -/

namespace Document

theorem throwsText_from_msgpack {codec : Codec} (hcodec : codec.ThrowsText) (s : Bytes) :
    ThrowsText (from_msgpack codec s) := by
  refine (hcodec s).bind fun j => (j.throwsText_index _).bind fun id => ?_
  exact id.throwsText_getString.bind fun _ => (j.throwsText_index _).bind fun _ => ThrowsText.ok _

theorem throwsText_withId (doc : Document) : ThrowsText doc.withId := by
  rw [withId]
  split_ifs
  · exact ThrowsText.ok _
  · exact (doc.data_.throwsText_setMember _ _).bind fun _ => ThrowsText.ok _

end Document

/-- Where the deserialiser throws text, reading a document throws nothing: it makes a status of
what is thrown. -/
theorem StorageEngine.exists_readDocument {codec : Codec} (hcodec : codec.ThrowsText)
    (e : StorageEngine) (fault : Option Bytes) (collection id : Bytes) :
    ∃ result, e.readDocument codec fault collection id = .ok result := by
  rw [readDocument]
  rcases e.get fault collection id with status | serialized
  · exact ⟨_, rfl⟩
  rcases hdoc : Document.from_msgpack codec serialized with exn | doc
  · obtain ⟨what, rfl, -⟩ := Document.throwsText_from_msgpack hcodec serialized exn hdoc
    simp only [hdoc]
    exact ⟨_, rfl⟩
  · simp only [hdoc]
    exact ⟨_, rfl⟩

/-! ### What the methods of a collection throw -/

namespace Collection

variable {codec : Codec} {c : Collection}

theorem throwsText_entryKey (doc : Document) (index : Bytes) : ThrowsText (entryKey codec doc index) :=
  (Json.throwsText_parseValue _).bind fun _ => ThrowsText.ok _

theorem raises_forIndexes {method : Document → Bytes → Engine Status} {doc : Document}
    (hmethod : ∀ index, (method doc index).Raises Exn.IsText) (indexes : List Bytes) :
    (forIndexes method doc indexes).Raises Exn.IsText := by
  induction indexes with
  | nil => trivial
  | cons index indexes ih =>
    rw [forIndexes]
    split_ifs
    · refine (hmethod index).bind fun status => ?_
      split_ifs
      · exact ih
      · trivial
    · exact ih

theorem raises_insertIfIndexFieldExists (doc : Document) (index : Bytes) :
    (c.insertIfIndexFieldExists codec doc index).Raises Exn.IsText :=
  (Prog.raises_ofExcept (throwsText_entryKey doc index)).bind fun _ => Prog.raises_perform _

theorem raises_deleteIfIndexFieldExists (doc : Document) (index : Bytes) :
    (c.deleteIfIndexFieldExists codec doc index).Raises Exn.IsText :=
  (Prog.raises_ofExcept (throwsText_entryKey doc index)).bind fun _ => Prog.raises_perform _

theorem raises_createDocument (entropy : Entropy) (doc : Document) :
    (c.createDocument codec entropy doc).Raises Exn.IsText := by
  refine (Prog.raises_ofExcept (Document.throwsText_withId _)).bind fun doc => ?_
  refine (Prog.raises_perform _).bind fun indexes => ?_
  refine (raises_forIndexes (fun _ => raises_insertIfIndexFieldExists doc _) indexes).bind
    fun status => ?_
  split_ifs
  · exact (Prog.raises_perform _).bind fun _ => Prog.raises_pure _
  · trivial

/-- What is thrown by the deserialiser is made a status of. -/
theorem raises_readDocument {E : Exn → Prop} (hcodec : codec.ThrowsText) (id : Bytes) :
    (c.readDocument codec id).Raises E := by
  refine (Prog.raises_perform _).bind fun result => ?_
  rcases result with status | serialized
  · trivial
  · dsimp only
    rcases hdoc : Document.from_msgpack codec serialized with exn | doc
    · obtain ⟨what, rfl, -⟩ := Document.throwsText_from_msgpack hcodec serialized exn hdoc
      trivial
    · trivial

theorem raises_deleteDocument (hcodec : codec.ThrowsText) (id : Bytes) :
    (c.deleteDocument codec id).Raises Exn.IsText := by
  refine (raises_readDocument hcodec id).bind fun found => ?_
  rcases found with status | doc
  · trivial
  · refine (Prog.raises_perform _).bind fun indexes => ?_
    refine (raises_forIndexes (fun _ => raises_deleteIfIndexFieldExists doc _) indexes).bind
      fun status => ?_
    split_ifs
    · exact Prog.raises_perform _
    · trivial

theorem raises_indexEntries (hcodec : codec.ThrowsText) (index : Bytes)
    (entries : List (Bytes × Bytes)) :
    (c.indexEntries codec index entries).Raises Exn.IsText := by
  induction entries with
  | nil => trivial
  | cons x entries ih =>
    refine (Prog.raises_ofExcept (Document.throwsText_from_msgpack hcodec x.2)).bind fun doc => ?_
    split_ifs
    · refine (raises_insertIfIndexFieldExists doc index).bind fun status => ?_
      split_ifs
      · exact ih
      · trivial
    · exact ih

/-- Building an index throws nothing that is not caught. -/
theorem raises_buildIndex {E : Exn → Prop} (hcodec : codec.ThrowsText) (cut : Option ℕ)
    (index : Bytes) :
    (Prog.tryCatch (c.buildIndex codec cut index) fun e => Prog.ofExcept (corruptionOf e)).Raises E := by
  refine Prog.Raises.tryCatch (E := Exn.IsText) ?_ fun exn hexn => ?_
  · exact (Prog.raises_perform _).bind fun entries => raises_indexEntries hcodec index entries
  · obtain ⟨what, rfl, -⟩ := hexn
    trivial

/-! ### Creating an index -/

section CreateIndex

variable {e : StorageEngine} {r : Stream' (Option Bytes)} (codec c) (index : Bytes)

/-- On an open database the family is there, or is refused; and then the index is built. -/
theorem run_createIndex_of_opened (hdb : e.db_ = .opened) : ∃ e₁,
    (r.head = none → c.getIndexCfName index ∈ e₁.columnFamilies_) ∧
    (∀ n ∈ e.columnFamilies_, n ∈ e₁.columnFamilies_) ∧
    (c.createIndex codec none index).run (.refusing e r) =
      (Prog.tryCatch (c.buildIndex codec none index) fun exn => Prog.ofExcept (corruptionOf exn)).run
        World.handle (.refusing e₁ r.tail) := by
  rw [createIndex, Engine.createCollection, bind_assoc, Engine.run_call_bind_refusing]
  simp only [StorageEngine.exec]
  rcases e.createCollection_cases r.head (c.getIndexCfName index) with
    ⟨-, -, hclosed⟩ | ⟨status, hc, -, hwhy⟩ | ⟨hc, -⟩
  · exact absurd hdb hclosed
  · rw [hc]
    refine ⟨e, fun hr => hwhy.resolve_right (by simp [hr]), fun n hn => hn, rfl⟩
  · rw [hc]
    refine ⟨_, fun _ => (StorageEngine.mem_insert_empty hdb).mpr (Or.inl rfl),
      fun n hn => (StorageEngine.mem_insert_empty hdb).mpr (Or.inr hn), rfl⟩

/-- Catching what building an index throws leaves what it has done. -/
theorem run_buildIndex_snd {codec} (w : World) :
    (Prog.run World.handle (Prog.tryCatch (c.buildIndex codec none index) fun exn =>
      Prog.ofExcept (corruptionOf exn)) w).2 = ((c.buildIndex codec none index).run w).2 := by
  rw [Prog.run_tryCatch, Engine.run]
  rcases Prog.run World.handle (c.buildIndex codec none index) w with ⟨status | exn | _, w'⟩
  · rfl
  · cases exn <;> rfl
  · rfl

/-- What is built leaves the families there are. -/
theorem mem_run_buildIndex {codec} (w : World) {n : Bytes} (hn : n ∈ w.engine.columnFamilies_) :
    n ∈ ((Prog.tryCatch (c.buildIndex codec none index) fun exn =>
      Prog.ofExcept (corruptionOf exn)).run World.handle w).2.engine.columnFamilies_ := by
  rw [run_buildIndex_snd, run_buildIndex]
  split_ifs
  · exact hn
  · rw [Engine.run_writes_engine]
    exact (StorageEngine.mem_applyAll _).mpr hn

/-- **Where RocksDB does not refuse, the index is there** when it has been created, whatever
comes of building it. -/
theorem mem_run_createIndex (hdb : e.db_ = .opened) (hr : r.head = none) :
    c.getIndexCfName index ∈
      ((c.createIndex codec none index).run (.refusing e r)).2.engine.columnFamilies_ := by
  obtain ⟨e₁, hmem, -, hrun⟩ := run_createIndex_of_opened (r := r) codec c index hdb
  rw [hrun]
  exact mem_run_buildIndex c index _ (hmem hr)

theorem run_createIndex_ne_raise {codec} (hcodec : codec.ThrowsText) (hdb : e.db_ = .opened) {exn : Exn} :
    ((c.createIndex codec none index).run (.refusing e r)).1 ≠ .raise exn := by
  obtain ⟨e₁, -, -, hrun⟩ := run_createIndex_of_opened (r := r) codec c index hdb
  intro h
  rw [hrun] at h
  exact (raises_buildIndex (E := fun _ => False) hcodec none index).of_run (Prod.ext h rfl)

end CreateIndex

end Collection

end AnuDB
