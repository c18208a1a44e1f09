import AnuDB.DocumentMap
import AnuDB.IndexDrops

/-!
# Documents that are created

`createDocument` gives a document without an id one made of the time and four random characters,
and stores it under that. It does not look whether the id is in use: `put` writes over what is
there. Every state in which the generated id is in use is one in which a document is lost, unless
the new one cannot be stored at all (`AnuDB.Collection.neverReplaces_iff`).

What a create does to the documents is said once (`AnuDB.Collection.createDocument_cases`): it
reports OK and there is one document more, or another one in its place, or the documents are
those there were.
-/

namespace AnuDB

open Effect

/-! ### Calls that all go through -/

namespace Engine

variable {α : Type} {e : StorageEngine}

/-- Where every call goes through, every call after a run does. -/
theorem run_calm_snd (p : Engine α) (e : StorageEngine) :
    (p.run (.calm e)).2 = .calm (p.run (.calm e)).2.engine := by
  induction p generalizing e with
  | ret a => rfl
  | raise exn => rfl
  | call x k ih =>
    change ((Prog.perform x >>= k : Engine α).run (.calm e)).2 =
      .calm ((Prog.perform x >>= k : Engine α).run (.calm e)).2.engine
    rw [run_call_bind_calm]
    exact ih _ _

/-- Where every call goes through, a step that throws is come to if the writes before it have
their families. -/
theorem run_writes_calm_of_error {before : List (Except Exn Write)}
    (hfamilies : ∀ x, .ok x ∈ before → x.family ∈ e.columnFamilies_) (exn : Exn)
    (after : List (Except Exn Write)) :
    ∃ exn', ((writes (before ++ .error exn :: after)).run (.calm e)).1 = .raise exn' := by
  induction before generalizing e with
  | nil => exact ⟨exn, rfl⟩
  | cons step before ih =>
    rcases step with exn' | x
    · exact ⟨exn', rfl⟩
    · have hx := hfamilies x List.mem_cons_self
      rw [List.cons_append]
      rcases run_writes_cases (w := .calm e) x (before ++ .error exn :: after) with
        ⟨-, -, hrun⟩ | ⟨hnot, -⟩
      · rw [hrun]
        refine ih fun y hy => ?_
        exact (StorageEngine.mem_applyAll [x]).mpr (hfamilies y (List.mem_cons_of_mem _ hy))
      · exact absurd ⟨rfl, hx⟩ hnot

/-- Writes that are worked out throw nothing. -/
theorem raises_writes {E : Exn → Prop} (ws : List Write) :
    (writes (ws.map .ok)).Raises E := by
  induction ws with
  | nil => trivial
  | cons x ws ih =>
    have hwrite : (write x).Raises E := by
      rw [write]
      split <;> exact Prog.raises_perform _
    refine hwrite.bind fun status => ?_
    split_ifs
    · exact ih
    · trivial

end Engine

namespace Collection

variable {codec : Codec} {c : Collection} {e : StorageEngine} {entropy : Entropy}
  {doc doc' doc'' : Document} {w : World}

/-! ### Values with keys -/

/-- **Every value in an indexed field has a key.** -/
def Keyed (codec : Codec) (c : Collection) (e : StorageEngine) (data : Json) : Prop :=
  ∀ f ∈ e.getIndexNames c.name_, ∀ value, data.find? f = some value →
    ∃ k, parseValue codec value = .ok k

/-- All values have keys exactly if the steps of a create are all writes. -/
theorem keyed_iff : Keyed codec c e doc.data_ ↔ ∃ ws : List Write,
    DocumentCall.storeSteps codec c doc (e.getIndexNames c.name_) = ws.map .ok := by
  rw [exists_eq_map_ok_iff, DocumentCall.storeSteps, List.forall_mem_append,
    List.forall_mem_singleton, and_iff_left ⟨_, rfl⟩, DocumentCall.entrySteps, List.forall_mem_map]
  constructor
  · intro h f hf
    obtain ⟨hlisted, hfield⟩ := List.mem_filter.mp hf
    obtain ⟨value, hvalue⟩ := Option.isSome_iff_exists.mp hfield
    obtain ⟨k, hkey⟩ := h f hlisted value hvalue
    refine ⟨⟨c.getIndexCfName f, k ++ separator ++ doc.id_, some doc.id_⟩, ?_⟩
    rw [entryKey, hvalue, Option.getD_some, indexKey_eq_ok_iff.mpr ⟨k, hkey, rfl⟩]
    rfl
  · intro h f hlisted value hvalue
    have hfield : hasIndexField doc.data_ f = true := by
      rw [hasIndexField, Json.contains, hvalue]
      rfl
    obtain ⟨x, hx⟩ := h f (List.mem_filter.mpr ⟨hlisted, hfield⟩)
    rw [entryKey, hvalue, Option.getD_some] at hx
    rcases hkey : indexKey codec value doc.id_ with exn | key
    · rw [hkey] at hx
      cases hx
    · obtain ⟨k, hk, -⟩ := indexKey_eq_ok_iff.mp hkey
      exact ⟨k, hk⟩

/-- The writes of a create are of the indexes that are listed, and of the collection. -/
theorem family_of_mem_storeSteps {x : Write}
    (h : .ok x ∈ DocumentCall.storeSteps codec c doc (e.getIndexNames c.name_)) :
    x.family ∈ e.columnFamilies_ ∨ x.family = c.name_ := by
  rcases List.mem_append.mp h with hentry | hlast
  · obtain ⟨f, hf, key, -, rfl⟩ := DocumentCall.mem_entrySteps.mp hentry
    exact Or.inl (StorageEngine.mem_getIndexNames.mp hf).1
  · obtain rfl := Except.ok.inj (List.mem_singleton.mp hlast)
    exact Or.inr rfl

/-! ### What a create does -/

/-- The run of a create, as a document call. -/
theorem run_perform_create {outcome : Outcome Exn (Status × Document)} {w' : World}
    (h : (c.createDocument codec entropy doc).run w = (outcome, w')) :
    ((DocumentCall.create entropy doc).perform codec c).run w = (outcome.map Prod.fst, w') := by
  rw [Engine.run] at h
  rw [DocumentCall.perform, Engine.run, Prog.run_map, h]

/-- A create returns the document it stores. -/
theorem eq_of_run_createDocument {status : Status} {w' : World}
    (hdoc : (assignId entropy doc).withId = .ok doc')
    (h : (c.createDocument codec entropy doc).run w = (.ret (status, doc''), w')) :
    doc'' = doc' := by
  rw [run_createDocument hdoc] at h
  split_ifs at h
  · cases (Prod.mk.inj h).1
  · obtain ⟨hmap, -⟩ := Prod.mk.inj h
    generalize Engine.run _ _ = r at hmap
    rcases r with ⟨status' | exn | _, w''⟩
    · exact (Prod.mk.inj (Outcome.ret.inj hmap)).2.symm
    · cases hmap
    · cases hmap

/-- A create adds no family and takes none away. -/
theorem mem_run_createDocument {n : Bytes} :
    n ∈ ((c.createDocument codec entropy doc).run w).2.engine.columnFamilies_ ↔
      n ∈ w.engine.columnFamilies_ := by
  have hengine := @DocumentCall.run_engine codec c w (.create entropy doc)
  rw [run_perform_create rfl] at hengine
  rw [hengine, StorageEngine.mem_applyAll]

/-- **What a create does to the documents**: it reports OK, its values have keys, and there is the
document under its id; or it does not, and the documents are those there were. -/
theorem createDocument_cases (codec : Codec) (c : Collection) (entropy : Entropy)
    (doc : Document) (w : World) :
    (∃ status doc' w', (c.createDocument codec entropy doc).run w = (.ret (status, doc'), w') ∧
      status.ok = true ∧ (assignId entropy doc).withId = .ok doc' ∧ Keyed codec c w.engine doc'.data_ ∧
      ∀ id, w'.engine.lookup c.name_ id =
        if id = doc'.id_ then some (doc'.to_msgpack codec) else w.engine.lookup c.name_ id) ∨
    ((∀ status doc', ((c.createDocument codec entropy doc).run w).1 = .ret (status, doc') →
      status.ok = false) ∧
      ∀ id, ((c.createDocument codec entropy doc).run w).2.engine.lookup c.name_ id =
        w.engine.lookup c.name_ id) := by
  rcases hrun : (c.createDocument codec entropy doc).run w with ⟨outcome, w'⟩
  have hperform := run_perform_create hrun
  have hengine := @DocumentCall.run_engine codec c w (.create entropy doc)
  rw [hperform] at hengine
  by_cases hok : ∃ status, (((DocumentCall.create entropy doc).perform codec c).run w).1 =
      .ret status ∧ status.ok = true
  · have hsteps := (DocumentCall.run_ok_iff _).mp hok
    obtain ⟨status, hret, hstatus⟩ := hok
    rw [hperform] at hret
    rcases outcome with ⟨status', doc''⟩ | exn | _
    · obtain rfl : status' = status := Outcome.ret.inj hret
      obtain ⟨doc', hstored, hws⟩ := Option.map_eq_some_iff.mp hsteps
      have hdoc : (assignId entropy doc).withId = .ok doc' := by
        rcases hwith : (assignId entropy doc).withId with exn | doc₁
        · simp [DocumentCall.stored, hwith, Except.toOption] at hstored
        · simpa [DocumentCall.stored, hwith, Except.toOption] using hstored
      obtain rfl := eq_of_run_createDocument hdoc hrun
      have hbatch := DocumentCall.batch_of_steps hws
      have hfamily := DocumentCall.mem_of_mem_landed ((hbatch _).mpr (Or.inr rfl))
      refine Or.inl ⟨status', doc'', w', rfl, hstatus, hdoc, keyed_iff.mpr ⟨_, hws⟩, fun id => ?_⟩
      rw [hengine]
      split_ifs with hid
      · rw [hid, hbatch.lookup_document hfamily]
      · rw [hbatch.lookup_document_of_ne hid]
    · cases hret
    · cases hret
  · refine Or.inr ⟨fun status doc' hret => ?_, fun id => ?_⟩
    · refine Bool.eq_false_iff.mpr fun hstatus => hok ⟨status, ?_, hstatus⟩
      rw [hperform]
      exact congrArg (Outcome.map Prod.fst) hret
    · rw [hengine]
      refine StorageEngine.lookup_applyAll_of_forall fun x hx hfamily _ => ?_
      exact DocumentCall.landed_of_not_ok hok hx hfamily

/-- A document with an object or with null for data is given its `_id`. -/
theorem withId_assignId_of_object (doc : Document) (entropy : Entropy)
    (h : doc.data_.isObject = true ∨ doc.data_ = .null) :
    (assignId entropy doc).withId = .ok ⟨DocumentMap.target entropy doc.id_,
      identified (DocumentMap.target entropy doc.id_) doc.data_⟩ := by
  have hdata : (assignId entropy doc).data_ = doc.data_ := by
    rw [assignId]
    split_ifs <;> rfl
  obtain ⟨doc', hdoc⟩ : ∃ doc', (assignId entropy doc).withId = .ok doc' := by
    rw [Document.withId, Document.hasField, Document.setValue, hdata]
    generalize doc.data_ = data at h
    cases data with
    | null => exact ⟨_, rfl⟩
    | object members => split_ifs <;> exact ⟨_, rfl⟩
    | _ => exact absurd h (by simp [Json.isObject])
  obtain ⟨hid, hnew⟩ := withId_assignId hdoc
  rw [hdoc]
  obtain ⟨id, data⟩ := doc'
  obtain rfl : data = identified id doc.data_ := hnew
  obtain rfl : id = DocumentMap.target entropy doc.id_ := hid
  rfl

/-- Only an object and null are given an `_id`. -/
theorem isObject_of_identified {id : Bytes} {data : Json}
    (h : (identified id data).isObject = true) : data.isObject = true ∨ data = .null := by
  cases data with
  | null => exact Or.inr rfl
  | object members => exact Or.inl rfl
  | _ => cases h

/-- A create whose calls all go through does the writes of its document. -/
theorem run_createDocument_calm_eq (hdoc : (assignId entropy doc).withId = .ok doc')
    {steps : List (Except Exn Write)}
    (hsteps : DocumentCall.storeSteps codec c doc' (e.getIndexNames c.name_) = steps) :
    (c.createDocument codec entropy doc).run (.calm e) =
      (((Engine.writes steps).run (.calm e)).1.map fun status => (status, doc'),
        ((Engine.writes steps).run (.calm e)).2) := by
  have hstop : (World.calm e).fates.head ≠ .stop := show Fate.ok ≠ .stop by simp
  rw [run_createDocument hdoc, if_neg hstop, ← hsteps]
  rfl

/-- **A create whose calls all go through returns** where the values in indexed fields have keys:
it reports OK exactly if the collection is there. -/
theorem createDocument_of_keyed (hdoc : (assignId entropy doc).withId = .ok doc')
    (hkeyed : Keyed codec c e doc'.data_) : ∃ status w',
      (c.createDocument codec entropy doc).run (.calm e) = (.ret (status, doc'), w') ∧
        (status.ok = true ↔ c.name_ ∈ e.columnFamilies_) := by
  obtain ⟨ws, hws⟩ := keyed_iff.mp hkeyed
  rw [run_createDocument_calm_eq hdoc hws]
  have hok := Engine.run_writes_ok_iff (w := .calm e) (ws.map .ok)
  rw [StorageEngine.landed_eq_iff] at hok
  have hlast : .ok ⟨c.name_, doc'.id_, some (doc'.to_msgpack codec)⟩ ∈
      (ws.map .ok : List (Except Exn Write)) := by
    rw [← hws]
    exact List.mem_append_right _ (List.mem_singleton_self _)
  rcases hrun : (Engine.writes (ws.map .ok)).run (.calm e) with ⟨status | exn | _, w'⟩
  · rw [hrun] at hok
    refine ⟨status, w', rfl, fun hstatus => ?_, fun hfamily => ?_⟩
    · -- the last write is of the document
      obtain ⟨ws', hws', hfamilies, -⟩ := hok.mp ⟨status, rfl, hstatus⟩
      rw [hws'] at hlast
      obtain ⟨x, hx, hxlast⟩ := List.mem_map.mp hlast
      obtain rfl := Except.ok.inj hxlast
      exact hfamilies _ hx
    · have hfamilies : ∀ x ∈ ws, x.family ∈ e.columnFamilies_ := by
        intro x hx
        have hmem : .ok x ∈ DocumentCall.storeSteps codec c doc' (e.getIndexNames c.name_) :=
          hws ▸ List.mem_map_of_mem hx
        exact (family_of_mem_storeSteps hmem).elim id fun h => h ▸ hfamily
      obtain ⟨status', hret, hstatus⟩ := hok.mpr ⟨ws, rfl, hfamilies, fun i _ => rfl⟩
      rwa [Outcome.ret.inj hret]
  · have hraises := Engine.raises_writes (E := fun _ => False) ws
    exact (hraises.of_run hrun).elim
  · exact absurd (congrArg Prod.fst hrun)
      (Engine.run_refusing_ne_stopped _ e (Stream'.const none))

/-- **And it throws** where one of them has none. -/
theorem createDocument_of_not_keyed (hdoc : (assignId entropy doc).withId = .ok doc')
    (hkeyed : ¬Keyed codec c e doc'.data_) : ∃ exn w',
      (c.createDocument codec entropy doc).run (.calm e) = (.raise exn, w') := by
  rw [@keyed_iff codec, exists_eq_map_ok_iff] at hkeyed
  push Not at hkeyed
  obtain ⟨step, hstep, hnot⟩ := hkeyed
  rcases step with exn | x
  · -- the document itself is no step that throws
    have hentry := (List.mem_append.mp hstep).resolve_right fun h => by
      cases List.mem_singleton.mp h
    obtain ⟨before, after, hsplit⟩ := List.append_of_mem hentry
    have hall : DocumentCall.storeSteps codec c doc' (e.getIndexNames c.name_) =
        before ++ .error exn :: (after ++ [.ok ⟨c.name_, doc'.id_,
          some (doc'.to_msgpack codec)⟩]) := by
      rw [DocumentCall.storeSteps, hsplit, List.append_assoc, List.cons_append]
    have hfamilies : ∀ x, .ok x ∈ before → x.family ∈ e.columnFamilies_ := by
      intro x hx
      have hmem : .ok x ∈ DocumentCall.entrySteps codec c doc' (some doc'.id_)
          (e.getIndexNames c.name_) := hsplit ▸ List.mem_append_left _ hx
      obtain ⟨f, hf, key, -, rfl⟩ := DocumentCall.mem_entrySteps.mp hmem
      exact (StorageEngine.mem_getIndexNames.mp hf).1
    obtain ⟨exn', hraise⟩ := Engine.run_writes_calm_of_error hfamilies exn
      (after ++ [.ok ⟨c.name_, doc'.id_, some (doc'.to_msgpack codec)⟩])
    rw [run_createDocument_calm_eq hdoc hall, hraise]
    exact ⟨exn', _, rfl⟩
  · exact absurd rfl (hnot x)

/-! ### Generated ids -/

/-- A document can be stored: it can be given an `_id`, and every value in an indexed field has a
key. -/
def Storable (codec : Codec) (c : Collection) (e : StorageEngine) (id : Bytes) (data : Json) : Prop :=
  (data.isObject = true ∨ data = .null) ∧ Keyed codec c e (identified id data)

/-- **A document created without an id never replaces another**: where the status is OK it is
stored under a generated id that was not in use, and every document there was is still there. -/
def NeverReplaces (codec : Codec) (c : Collection) (e : StorageEngine) (entropy : Entropy)
    (data : Json) : Prop :=
  ∀ refusals status doc' w',
    (c.createDocument codec entropy ⟨[], data⟩).run (.refusing e refusals) =
      (.ret (status, doc'), w') → status.ok = true →
    doc'.id_ = generateId entropy ∧ e.lookup c.name_ doc'.id_ = none ∧
      w'.engine.document codec c.name_ doc'.id_ = some doc' ∧
      ∀ id serialized, e.lookup c.name_ id = some serialized →
        w'.engine.lookup c.name_ id = some serialized

/-- **Where a create without an id replaces nothing**: in every state in which the generated id is
not in use, and else where the document cannot be stored. -/
theorem neverReplaces_iff (codec : Codec) (c : Collection) (e : StorageEngine)
    (entropy : Entropy) (data : Json) :
    NeverReplaces codec c e entropy data ↔
      (Storable codec c e (generateId entropy) data → e.lookup c.name_ (generateId entropy) = none) := by
  constructor
  · rintro h ⟨hobject, hkeyed⟩
    have hdoc := withId_assignId_of_object ⟨[], data⟩ entropy hobject
    obtain ⟨status, w', hrun, hok⟩ := createDocument_of_keyed hdoc hkeyed
    by_cases hfamily : c.name_ ∈ e.columnFamilies_
    · obtain ⟨hid, hnone, -⟩ := h (Stream'.const none) status _ w' hrun (hok.mpr hfamily)
      exact hid ▸ hnone
    · rcases hlookup : e.lookup c.name_ (generateId entropy) with _ | serialized
      · rfl
      · exact absurd (StorageEngine.mem_of_lookup hlookup) hfamily
  · intro h refusals status doc' w' hrun hstatus
    rcases createDocument_cases codec c entropy ⟨[], data⟩ (.refusing e refusals) with
      ⟨status', doc₁, w₁, hrun', -, hdoc, hkeyed, hlookup⟩ | ⟨hfailed, -⟩
    · obtain ⟨hret, rfl⟩ := Prod.mk.inj (hrun'.symm.trans hrun)
      obtain ⟨-, rfl⟩ := Prod.mk.inj (Outcome.ret.inj hret)
      obtain ⟨hid, hdata⟩ := withId_assignId hdoc
      have hgenerated : doc₁.id_ = generateId entropy := by rw [hid, DocumentMap.target, if_pos rfl]
      rw [hgenerated] at hlookup
      rw [hdata, hgenerated] at hkeyed
      have hobject := hdata ▸ Document.isObject_of_withId hdoc
      have hnone := h ⟨isObject_of_identified hobject, hkeyed⟩
      refine ⟨hgenerated, hgenerated ▸ hnone, ?_, fun id serialized hid => ?_⟩
      · rw [StorageEngine.document, hgenerated, hlookup, if_pos rfl, Option.bind_some,
          Document.from_msgpack_to_msgpack]
        rfl
      · rw [hlookup, if_neg]
        · exact hid
        · rintro rfl
          rw [hnone] at hid
          cases hid
    · rw [hfailed status doc' (by rw [hrun])] at hstatus
      cases hstatus

/-- A collection with one document, created without an id. -/
def generated : StorageEngine :=
  Operation.afterAll .standard .fresh [.createCollection letterC.name_,
    .document letterC (.create ⟨0, fun _ => 0⟩ ⟨[], .object [(Bytes.ofText "f", .integer 1)]⟩)]

/-- **A second one, in the same second and with the same random numbers, replaces it.** -/
theorem not_neverReplaces_generated :
    ¬NeverReplaces .standard letterC generated ⟨0, fun _ => 0⟩
      (.object [(Bytes.ofText "f", .integer 2)]) := by
  intro h
  have hdoc := withId_assignId_of_object ⟨[], .object [(Bytes.ofText "f", .integer 2)]⟩
    ⟨0, fun _ => 0⟩ (Or.inl rfl)
  have hindexes : generated.getIndexNames letterC.name_ = [] := by decide +kernel
  have hkeyed (data : Json) : Keyed .standard letterC generated data :=
    fun f hf => absurd (hindexes ▸ hf) List.not_mem_nil
  obtain ⟨status, w', hrun, hok⟩ := createDocument_of_keyed hdoc (hkeyed _)
  have hfamily : letterC.name_ ∈ generated.columnFamilies_ := by decide +kernel
  obtain ⟨hid, hnone, -⟩ := h (Stream'.const none) status _ w' hrun (hok.mpr hfamily)
  rw [hid] at hnone
  have hused : generated.lookup letterC.name_ (generateId ⟨0, fun _ => 0⟩) ≠ none := by
    decide +kernel
  exact hused hnone

end Collection

end AnuDB
