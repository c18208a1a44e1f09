import AnuDB.IndexSound
import AnuDB.Rebuild
import AnuDB.StringKeys

/-!
# Do answers depend on the past?

A query reads the indexes of its collection and nothing else. What is in an index is written one
entry at a time, by every call that stores or removes a document while the index is there, and all
at once when it is built. So two databases that hold the same documents may have come to them in
different ways, and have filled their indexes differently.

In runs that keep the indexes as they should be (`AnuDB.KeepsExact`) nothing of that is left. An
exact index is a function of the documents (`AnuDB.ExactIndex.contents_eq`), key by key and so entry
by entry in the order they are walked in; and every query is answered alike, to the last id and in
the same order, wherever the documents and the indexes are the same
(`AnuDB.Collection.findDocument_eq_of_runs`).
-/

namespace AnuDB

/-! ### What a query reads -/

namespace StorageEngine

variable {e e' : StorageEngine} {n : Bytes}

theorem fetchDocIds_congr (h : e.contents n = e'.contents n)
    (scan : List (Bytes × Bytes) → List (Bytes × Bytes)) (docIds : List Bytes) :
    e.fetchDocIds scan n docIds = e'.fetchDocIds scan n docIds := by
  rw [contents, contents] at h
  rw [fetchDocIds, fetchDocIds, h]

theorem fetchDocIdsForLesser_congr (h : e.contents n = e'.contents n) (key : Bytes)
    (docIds : List Bytes) :
    e.fetchDocIdsForLesser n key docIds = e'.fetchDocIdsForLesser n key docIds := by
  have hcursor : e.cursor n = e'.cursor n := by
    rw [contents, contents] at h
    rw [cursor, cursor, h]
  rw [fetchDocIdsForLesser, fetchDocIdsForLesser, hcursor, fetchDocIds_congr h]

end StorageEngine

namespace Collection

/-- **Two engines have the same indexes of a collection**: the same are listed, and the families
hold the same. -/
structure SameIndexes (c : Collection) (e e' : StorageEngine) : Prop where
  /-- The same are listed. -/
  listed : ∀ f, f ∈ e.getIndexNames c.name_ ↔ f ∈ e'.getIndexNames c.name_
  /-- The families hold the same. -/
  contents : ∀ f, e.contents (c.getIndexCfName f) = e'.contents (c.getIndexCfName f)

namespace SameIndexes

variable {c : Collection} {e e' : StorageEngine} {ops : Json} {docIds : List Bytes}
  (h : SameIndexes c e e')

include h

theorem findDocumentsUsingEq : c.findDocumentsUsingEq codec e ops (e.getIndexNames c.name_) docIds =
    c.findDocumentsUsingEq codec e' ops (e'.getIndexNames c.name_) docIds := by
  rw [Collection.findDocumentsUsingEq, Collection.findDocumentsUsingEq]
  simp only [h.listed, StorageEngine.fetchDocIdsForEqual,
    StorageEngine.fetchDocIds_congr (h.contents _)]

theorem findDocumentsUsingGt :
    c.findDocumentsUsingGt codec e ops docIds = c.findDocumentsUsingGt codec e' ops docIds := by
  rw [Collection.findDocumentsUsingGt, Collection.findDocumentsUsingGt]
  simp only [StorageEngine.fetchDocIdsForGreater, StorageEngine.fetchDocIds_congr (h.contents _)]

theorem findDocumentsUsingLt :
    c.findDocumentsUsingLt codec e ops docIds = c.findDocumentsUsingLt codec e' ops docIds := by
  rw [Collection.findDocumentsUsingLt, Collection.findDocumentsUsingLt]
  simp only [StorageEngine.fetchDocIdsForLesser_congr (h.contents _)]

theorem findOrdered : c.findOrdered e ops docIds = c.findOrdered e' ops docIds := by
  rw [Collection.findOrdered, Collection.findOrdered]
  simp only [StorageEngine.fetchDocIdsByOrder, StorageEngine.fetchDocIds_congr (h.contents _)]

theorem findNested (op : Bytes) : c.findNested codec e (e.getIndexNames c.name_) op ops =
    c.findNested codec e' (e'.getIndexNames c.name_) op ops := by
  rw [Collection.findNested, Collection.findNested, h.findDocumentsUsingEq, h.findDocumentsUsingGt,
    h.findDocumentsUsingLt]

theorem findInClause (combine : List Bytes → List Bytes → List Bytes)
    (elements : List (Bytes × Json)) (set : List Bytes) :
    c.findInClause codec e combine (e.getIndexNames c.name_) elements set =
      c.findInClause codec e' combine (e'.getIndexNames c.name_) elements set := by
  induction elements generalizing set with
  | nil => rfl
  | cons m elements ih => simp only [Collection.findInClause, h.findNested, ih]

theorem findInClauses (combine : List Bytes → List Bytes → List Bytes) (items : List Json)
    (set : List Bytes) : c.findInClauses codec e combine (e.getIndexNames c.name_) items set =
      c.findInClauses codec e' combine (e'.getIndexNames c.name_) items set := by
  induction items generalizing set with
  | nil => rfl
  | cons item items ih => simp only [Collection.findInClauses, h.findInClause, ih]

theorem findCombined (combine : List Bytes → List Bytes → List Bytes) :
    c.findCombined codec e combine (e.getIndexNames c.name_) ops docIds =
      c.findCombined codec e' combine (e'.getIndexNames c.name_) ops docIds := by
  cases ops with
  | array items => simp only [Collection.findCombined, h.findInClauses]
  | _ => rfl

theorem findStep (op : Bytes) : c.findStep codec e (e.getIndexNames c.name_) op ops docIds =
    c.findStep codec e' (e'.getIndexNames c.name_) op ops docIds := by
  rw [Collection.findStep, Collection.findStep, h.findDocumentsUsingEq, h.findDocumentsUsingGt,
    h.findDocumentsUsingLt, h.findCombined, h.findCombined, h.findOrdered]

theorem findAll (members : List (Bytes × Json)) (docIds : List Bytes) :
    c.findAll codec e (e.getIndexNames c.name_) members docIds =
      c.findAll codec e' (e'.getIndexNames c.name_) members docIds := by
  induction members generalizing docIds with
  | nil => rfl
  | cons m members ih => simp only [Collection.findAll, h.findStep, ih]

/-- **The same indexes answer alike**: the same ids in the same order, or the same exception. -/
theorem findDocument (query : Json) : c.findDocument codec e query = c.findDocument codec e' query := by
  simp only [Collection.findDocument, h.findAll]

theorem stepReports (op : Bytes) : c.stepReports codec e (e.getIndexNames c.name_) op ops =
    c.stepReports codec e' (e'.getIndexNames c.name_) op ops := by
  rw [Collection.stepReports, Collection.stepReports, h.findDocumentsUsingEq,
    h.findDocumentsUsingGt, h.findDocumentsUsingLt, h.findCombined, h.findCombined, h.findOrdered]

/-- They report errors alike. -/
theorem findReports (query : Json) : c.findReports codec e query = c.findReports codec e' query := by
  simp only [Collection.findReports, h.stepReports]

end SameIndexes

end Collection

/-! ### An exact index is a function of the documents -/

namespace ExactIndex

variable {codec : Codec} {e e' : StorageEngine} {c : Collection} {f key id : Bytes}

/-- **What is in an exact index** is told by the documents. -/
theorem lookup_iff (h : ExactIndex codec e c f) : e.lookup (c.getIndexCfName f) key = some id ↔
    ∃ doc, e.document codec c.name_ id = some doc ∧ doc.id_ = id ∧ doc.EntryAt codec f key := by
  refine ⟨h.sound key id, ?_⟩
  rintro ⟨doc, hdoc, -, hat⟩
  obtain ⟨key', hat', -, hlookup⟩ := h.complete id doc hdoc hat.hasField
  rwa [hat.unique hat']

/-- **Exact indexes of the same documents hold the same.** -/
theorem contents_eq (h : ExactIndex codec e c f) (h' : ExactIndex codec e' c f)
    (hdocuments : ∀ id, e.document codec c.name_ id = e'.document codec c.name_ id) :
    e.contents (c.getIndexCfName f) = e'.contents (c.getIndexCfName f) := by
  refine StorageEngine.contents_ext (iff_of_true h.mem h'.mem) fun key => ?_
  refine Option.ext fun id => ?_
  rw [h.lookup_iff, h'.lookup_iff, hdocuments]

end ExactIndex

/-! ### Runs that keep the indexes exact -/

/-- **The condition on an operation** under which it keeps the indexes exact: it leaves nothing
behind, and takes nothing from others. -/
def KeepsExact (codec : Codec) (K : Set Bytes) (e : StorageEngine) (op : Operation) : Prop :=
  SoundCondition codec K e op ∧ CompleteCondition codec K e op

variable {codec : Codec} {K K' : Set Bytes} {e e' : StorageEngine} {c : Collection}

/-- **In runs that keep them exact, all indexes of the collections are exact.** -/
theorem exactIndex_of_okRun (h : OkRun codec (KeepsExact codec) K e) (hc : c.name_ ∈ K) {f : Bytes}
    (hf : c.getIndexCfName f ∈ e.columnFamilies_) : ExactIndex codec e c f := by
  have hall : IdsAgreeIn codec K e ∧ IndexSound codec K e ∧ IndexComplete codec K e := by
    refine h.invariant
      (I := fun K e => IdsAgreeIn codec K e ∧ IndexSound codec K e ∧ IndexComplete codec K e)
      ⟨idsAgreeIn_fresh, indexSound_fresh, indexComplete_fresh⟩ ?_
    rintro K₁ e₁ e₂ op ⟨hids, hsound, hcomplete⟩ ⟨hkeeps, htakes⟩ hstep
    exact ⟨hids.okStep hkeeps.staysOut hstep, hsound.okStep hids hkeeps hstep,
      hcomplete.okStep hids htakes hstep⟩
  obtain ⟨-, hsound, hcomplete⟩ := hall
  exact ⟨hf, hsound c.name_ hc f, hcomplete c.name_ hc f hf⟩

/-- The same documents and the same indexes, after such runs, make indexes that hold the same. -/
theorem sameIndexes_of_okRun (h : OkRun codec (KeepsExact codec) K e)
    (h' : OkRun codec (KeepsExact codec) K' e') (hc : c.name_ ∈ K) (hc' : c.name_ ∈ K')
    (hindexes : ∀ f, c.getIndexCfName f ∈ e.columnFamilies_ ↔
      c.getIndexCfName f ∈ e'.columnFamilies_)
    (hdocuments : ∀ id, e.document codec c.name_ id = e'.document codec c.name_ id) :
    c.SameIndexes e e' := by
  refine ⟨fun f => ?_, fun f => ?_⟩
  · rw [StorageEngine.mem_getIndexNames, StorageEngine.mem_getIndexNames]
    exact and_congr_left' (hindexes f)
  by_cases hf : c.getIndexCfName f ∈ e.columnFamilies_
  · exact (exactIndex_of_okRun h hc hf).contents_eq
      (exactIndex_of_okRun h' hc' ((hindexes f).mp hf)) hdocuments
  · -- neither has a family for it
    have hnone {e : StorageEngine} (hf : c.getIndexCfName f ∉ e.columnFamilies_) :
        e.contents (c.getIndexCfName f) = none := by
      rwa [← Option.not_isSome_iff_eq_none, ← StorageEngine.mem_iff_contents]
    rw [hnone hf, hnone fun hf' => hf ((hindexes f).mpr hf')]

/-- **Answers do not depend on the past**: after any two runs that keep the indexes exact and end
with the same documents and the same indexes of a collection, every query comes to the same ids in
the same order, or to the same exception, and reports the same. -/
theorem Collection.findDocument_eq_of_runs (h : OkRun codec (KeepsExact codec) K e)
    (h' : OkRun codec (KeepsExact codec) K' e') (hc : c.name_ ∈ K) (hc' : c.name_ ∈ K')
    (hindexes : ∀ f, c.getIndexCfName f ∈ e.columnFamilies_ ↔
      c.getIndexCfName f ∈ e'.columnFamilies_)
    (hdocuments : ∀ id, e.document codec c.name_ id = e'.document codec c.name_ id)
    (query : Json) : c.findDocument codec e query = c.findDocument codec e' query ∧
      c.findReports codec e query = c.findReports codec e' query := by
  have hsame := sameIndexes_of_okRun h h' hc hc' hindexes hdocuments
  exact ⟨hsame.findDocument query, hsame.findReports query⟩

/-! ### The same document, after two runs -/

/-- A collection whose indexes have no entries may be created. -/
theorem keepsExact_createCollection (hc : Separable c.name_)
    (hnone : ∀ f key, e.lookup (indexFamily c.name_ f) key = none) :
    KeepsExact codec K e (.createCollection c.name_) :=
  ⟨hnone, fun a _ g hn => absurd hn (ne_indexFamily_of_not_delimited hc.not_delimited a g)⟩

section Bare

variable (hK : ∀ a ∈ K, Separable a) (hc : Separable c.name_)
  (hempty : ∀ a ∈ K, e.contents a = some ∅)

include hK hc hempty

/-- An index of a collection may be built where there are no documents. -/
theorem keepsExact_createIndex (hin : c.name_ ∈ K) (f : Bytes) :
    KeepsExact codec K e (.createIndex c f) :=
  ⟨fun _ _ _ _ => hasOwnFamily_of_separable hK hc f, completeCondition_createIndex hempty hin f⟩

/-- The first document may be created, where the indexes are empty. -/
theorem keepsExact_create (hnone : ∀ f key, e.lookup (indexFamily c.name_ f) key = none)
    (entropy : Entropy) (doc : Document) :
    KeepsExact codec K e (.document c (.create entropy doc)) := by
  have hown (f : Bytes) : HasOwnFamily K c.name_ f := hasOwnFamily_of_separable hK hc f
  refine ⟨fun d _ => ⟨fun a _ g => ne_indexFamily_of_not_delimited hc.not_delimited a g,
    fun f _ _ => hown f, fun f key hkey => ?_⟩, completeCondition_create hempty hown hc entropy doc⟩
  rw [hnone] at hkey
  cases hkey

end Bare

/-- The index is dropped and created again before a document is created. -/
def indexedAnew : List Operation :=
  [.createCollection letterC.name_, .createIndex letterC (Bytes.ofText "f"),
    .deleteIndex letterC (Bytes.ofText "f"), .createIndex letterC (Bytes.ofText "f"),
    .document letterC (.create ⟨0, fun _ => 0⟩ (titled (Bytes.ofText "b#c") (Bytes.ofText "a")))]

/-- The collections of the two runs. -/
def withLetterC : Set Bytes := {letterC.name_, kDefaultColumnFamilyName}

theorem separable_withLetterC : ∀ a ∈ withLetterC, Separable a := by
  rintro a (rfl | rfl) <;> decide

/-- Where the families hold nothing no index has an entry. -/
theorem lookup_eq_none_of_keys (hkeys : ∀ n ∈ e.columnFamilies_.keys, e.cursor n = [])
    (n key : Bytes) : e.lookup n key = none := by
  by_contra h
  obtain ⟨value, hvalue⟩ := Option.ne_none_iff_exists'.mp h
  have hmem := StorageEngine.mem_cursor.mpr hvalue
  rw [hkeys n (Std.ExtTreeMap.mem_keys.mpr (StorageEngine.mem_of_lookup hvalue))] at hmem
  exact List.not_mem_nil hmem

theorem okRun_indexedBefore : OkRun .standard (KeepsExact .standard) withLetterC
    (Operation.afterAll .standard .fresh indexedBefore) := by
  have hsep : Separable letterC.name_ := by decide
  have hok : Operation.acceptedAll .standard .fresh indexedBefore = true := by decide +kernel
  obtain ⟨hcreate, hindex, hdocument, -⟩ := by
    simpa only [indexedBefore, Operation.acceptedAll, Bool.and_eq_true] using hok
  have h₁ : OkRun .standard (KeepsExact .standard) withLetterC _ :=
    OkRun.fresh.step (.createCollection letterC.name_)
      (keepsExact_createCollection hsep fun f key =>
        StorageEngine.lookup_fresh _ _) (Operation.okStep_after hcreate)
  have h₂ := h₁.step (.createIndex letterC _) (keepsExact_createIndex separable_withLetterC hsep
    (by rintro a (rfl | rfl) <;> decide +kernel) (Or.inl rfl) _) (Operation.okStep_after hindex)
  exact h₂.step (.document letterC (.create _ _)) (keepsExact_create separable_withLetterC hsep
    (by rintro a (rfl | rfl) <;> decide +kernel)
    (fun f => lookup_eq_none_of_keys (by decide +kernel) _) _ _) (Operation.okStep_after hdocument)

theorem okRun_indexedAnew : ∃ K, letterC.name_ ∈ K ∧ OkRun .standard (KeepsExact .standard) K
    (Operation.afterAll .standard .fresh indexedAnew) := by
  have hsep : Separable letterC.name_ := by decide
  have hok : Operation.acceptedAll .standard .fresh indexedAnew = true := by decide +kernel
  obtain ⟨hcreate, hindex, hdelete, hagain, hdocument, -⟩ := by
    simpa only [indexedAnew, Operation.acceptedAll, Bool.and_eq_true] using hok
  have h₁ : OkRun .standard (KeepsExact .standard) withLetterC _ :=
    OkRun.fresh.step (.createCollection letterC.name_)
      (keepsExact_createCollection hsep fun f key =>
        StorageEngine.lookup_fresh _ _) (Operation.okStep_after hcreate)
  have h₂ := h₁.step (.createIndex letterC _) (keepsExact_createIndex separable_withLetterC hsep
    (by rintro a (rfl | rfl) <;> decide +kernel) (Or.inl rfl) _) (Operation.okStep_after hindex)
  have h₃ := h₂.step (.deleteIndex letterC _) ⟨trivial, trivial⟩ (Operation.okStep_after hdelete)
  -- the name of the index that is dropped is not one of the collections
  have hfewer : ∀ a ∈ (Operation.deleteIndex letterC (Bytes.ofText "f")).collections withLetterC,
      Separable a := fun a ha => separable_withLetterC a ha.1
  have hin : letterC.name_ ∈
      (Operation.deleteIndex letterC (Bytes.ofText "f")).collections withLetterC :=
    ⟨Or.inl rfl, (indexFamily_ne letterC.name_ (Bytes.ofText "f")).symm⟩
  have h₄ := h₃.step (.createIndex letterC _) (keepsExact_createIndex hfewer hsep
    (by rintro a ⟨rfl | rfl, -⟩ <;> decide +kernel) hin _) (Operation.okStep_after hagain)
  exact ⟨_, hin, h₄.step (.document letterC (.create _ _)) (keepsExact_create hfewer hsep
    (by rintro a ⟨rfl | rfl, -⟩ <;> decide +kernel)
    (fun f => lookup_eq_none_of_keys (by decide +kernel) _) _ _) (Operation.okStep_after hdocument)⟩

/-- The query for the strings equal to an operand. -/
def equalTo (operand : String) : Json := rangeQuery "$eq" (Bytes.ofText "f") (.string (Bytes.ofText operand))

theorem findDocument_indexedAnew :
    letterC.findDocument .standard (Operation.afterAll .standard .fresh indexedBefore) (equalTo "a") =
      letterC.findDocument .standard (Operation.afterAll .standard .fresh indexedAnew) (equalTo "a") ∧
    letterC.findDocument .standard (Operation.afterAll .standard .fresh indexedBefore) (equalTo "a") =
      .ok [Bytes.ofText "b#c"] := by
  obtain ⟨K, hin, hrun⟩ := okRun_indexedAnew
  have hdocuments {e e' : StorageEngine} (h : e.contents letterC.name_ = e'.contents letterC.name_)
      (id : Bytes) : e.document .standard letterC.name_ id = e'.document .standard letterC.name_ id := by
    rw [StorageEngine.document, StorageEngine.document, StorageEngine.lookup, StorageEngine.lookup, h]
  have hfamilies {e e' : StorageEngine} (h : e.columnFamilies_.keys = e'.columnFamilies_.keys)
      (n : Bytes) : n ∈ e.columnFamilies_ ↔ n ∈ e'.columnFamilies_ := by
    rw [← Std.ExtTreeMap.mem_keys, h, Std.ExtTreeMap.mem_keys]
  have hsame := Collection.findDocument_eq_of_runs okRun_indexedBefore hrun (c := letterC)
    (Or.inl rfl) hin (fun f => hfamilies (by decide +kernel) _) (hdocuments (by rfl)) (equalTo "a")
  exact ⟨hsame.1, by rfl⟩

end AnuDB
