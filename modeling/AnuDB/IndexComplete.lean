import AnuDB.Runs

/-!
# Index completeness

The indexes of a collection are complete if every document that has the field has its entry there,
under the key of its value, and the entry is its own (`AnuDB.IndexComplete`). An entry's key is
`<value>#<id>`, and nothing keeps a `#` in a value or in an id apart from the one in between: two
documents may have one key, and then the entry is of the one that was written last
(`AnuDB.not_indexComplete_of_shared_key`). And a collection whose name does not come back out of
the names of its indexes gets no entries at all, but those its indexes are built with.

The condition under which an operation keeps the indexes complete (`AnuDB.CompleteCondition`) says
that no key it writes or removes is one that a document with another id has its entry under
(`AnuDB.Taken`), that a document that is stored has its entry already in an index that is not
listed, and that no index family appears with entries missing. In a run whose operations meet it
every index is complete in every state (`AnuDB.indexComplete_of_okRun`).
-/

namespace AnuDB

variable {codec : Codec} {K : Set Bytes} {e e' : StorageEngine}

/-- **Every document with the field of an index of its collection has its own entry in it.** The
indexes are those on all fields that have a family, listed or not. -/
def IndexComplete (codec : Codec) (K : Set Bytes) (e : StorageEngine) : Prop :=
  ∀ c ∈ K, ∀ f, indexFamily c f ∈ e.columnFamilies_ → ∀ id doc, e.document codec c id = some doc →
    hasIndexField doc.data_ f = true →
    ∃ key, doc.EntryAt codec f key ∧ doc.id_ = id ∧ e.lookup (indexFamily c f) key = some id

/-- **A key of an index is taken** from an id if a document with another id has its entry
there. -/
def Taken (codec : Codec) (K : Set Bytes) (e : StorageEngine) (family key id : Bytes) : Prop :=
  ∃ a ∈ K, ∃ g j doc, family = indexFamily a g ∧ e.document codec a j = some doc ∧
    doc.EntryAt codec g key ∧ doc.id_ ≠ id

/-- **The condition on an operation** under which it keeps the indexes complete. -/
def CompleteCondition (codec : Codec) (K : Set Bytes) (e : StorageEngine) : Operation → Prop
  | .createCollection name => ∀ a ∈ K, ∀ g, name = indexFamily a g → ∀ id doc,
      e.document codec a id = some doc → hasIndexField doc.data_ g = false
  | .document c (.delete id) => ¬Taken codec K e c.name_ id id ∧
      ∀ doc, e.document codec c.name_ id = some doc → ∀ f ∈ e.getIndexNames c.name_,
        hasIndexField doc.data_ f = true → ∀ a ∈ K, ∀ g,
        indexFamily a g = indexFamily c.name_ f → a = c.name_
  | .document c call => ∀ doc, call.stored codec c e = some doc →
      (∀ f ∈ e.getIndexNames c.name_, ∀ key, doc.EntryAt codec f key →
        indexFamily c.name_ f ∉ K ∧ ¬Taken codec K e (indexFamily c.name_ f) key doc.id_) ∧
      ¬Taken codec K e c.name_ doc.id_ doc.id_ ∧
      ∀ f ∉ e.getIndexNames c.name_, indexFamily c.name_ f ∈ e.columnFamilies_ →
        hasIndexField doc.data_ f = true → ∃ key, doc.EntryAt codec f key ∧
        e.lookup (indexFamily c.name_ f) key = some doc.id_
  | .createIndex c index =>
      (c.getIndexCfName index ∉ e.columnFamilies_ → ∀ a ∈ K, ∀ g,
        c.getIndexCfName index = indexFamily a g → a ≠ c.name_ → ∀ id doc,
        e.document codec a id = some doc → hasIndexField doc.data_ g = false) ∧
      ∀ id doc, e.document codec c.name_ id = some doc → hasIndexField doc.data_ index = true →
        c.getIndexCfName index ∉ K ∧ ∀ key, doc.EntryAt codec index key →
        ¬Taken codec K e (c.getIndexCfName index) key doc.id_
  | .deleteIndex .. => True

/-- An entry's key is longer than the id it is of. -/
theorem Document.EntryAt.ne_id {doc : Document} {f key : Bytes} (h : doc.EntryAt codec f key) :
    key ≠ doc.id_ := by
  obtain ⟨value, k, -, -, rfl⟩ := h
  intro heq
  have hlength := congrArg List.length heq
  rw [List.length_append, List.length_append] at hlength
  have hone : separator.length = 1 := rfl
  omega

/-- A key that is not taken is the key of no document with another id. -/
theorem id_eq_of_not_taken {a g j key id : Bytes} {doc : Document}
    (h : ¬Taken codec K e (indexFamily a g) key id) (ha : a ∈ K)
    (hdoc : e.document codec a j = some doc) (hat : doc.EntryAt codec g key) : doc.id_ = id :=
  not_not.mp fun hne => h ⟨a, ha, g, j, doc, rfl, hdoc, hat, hne⟩

/-- No key is taken where the collections have no documents. -/
theorem not_taken_of_empty {n key id : Bytes} (h : ∀ a ∈ K, e.contents a = some ∅) :
    ¬Taken codec K e n key id := by
  rintro ⟨a, ha, g, j, doc, -, hdoc, -⟩
  rw [StorageEngine.document, StorageEngine.lookup_of_empty (h a ha)] at hdoc
  cases hdoc

/-- Under the condition entries are written into no collection, where documents that are stored
have keys. -/
theorem CompleteCondition.staysOut {op : Operation} (h : CompleteCondition codec K e op)
    (hstep : op.OkStep codec e e') : StaysOut codec K e op := by
  cases op with
  | document c call =>
    intro doc hstored f hf hfield
    obtain ⟨ws, hcomplete, rfl⟩ := Operation.document_okStep hstep
    rcases DocumentCall.completes_cases hcomplete with
      ⟨doc', hstored', hsteps⟩ | ⟨doc', id, rfl, -, -⟩
    · obtain rfl := Option.some.inj (hstored.symm.trans hstored')
      obtain ⟨key, hat⟩ := DocumentCall.exists_entryAt hsteps hf hfield
      cases call with
      | delete id => exact absurd hstored (by simp [DocumentCall.stored])
      | _ => exact ((h doc hstored).1 f hf key hat).1
    · exact absurd hstored (by simp [DocumentCall.stored])
  | createIndex c index => exact fun id doc hdoc hfield => (h.2 id doc hdoc hfield).1
  | _ => trivial

/-- Completeness, for a document of an index that was there, where neither the document nor its
entry has changed. -/
theorem IndexComplete.congr_of (h : IndexComplete codec K e) {c f id : Bytes} {doc : Document}
    (hc : c ∈ K) (hf : indexFamily c f ∈ e.columnFamilies_)
    (hdoc : e'.document codec c id = some doc) (hfield : hasIndexField doc.data_ f = true)
    (hdocument : e'.lookup c id = e.lookup c id)
    (hentry : ∀ key, doc.EntryAt codec f key → e.document codec c id = some doc → doc.id_ = id →
      e.lookup (indexFamily c f) key = some id → e'.lookup (indexFamily c f) key = some id) :
    ∃ key, doc.EntryAt codec f key ∧ doc.id_ = id ∧ e'.lookup (indexFamily c f) key = some id := by
  rw [StorageEngine.document, hdocument] at hdoc
  obtain ⟨key, hat, hid, hlookup⟩ := h c hc f hf id doc hdoc hfield
  exact ⟨key, hat, hid, hentry key hat hdoc hid hlookup⟩

/-- A document that is stored, under the condition, keeps the indexes complete. -/
theorem IndexComplete.store (h : IndexComplete codec K e) {c : Collection} {doc : Document}
    {ws : List Write} (hsteps : DocumentCall.storeSteps codec c doc (e.getIndexNames c.name_) =
      ws.map .ok)
    (hmem : ∀ x ∈ ws, x.family ∈ e.columnFamilies_)
    (hentries : ∀ f ∈ e.getIndexNames c.name_, ∀ key, doc.EntryAt codec f key →
      indexFamily c.name_ f ∉ K ∧ ¬Taken codec K e (indexFamily c.name_ f) key doc.id_)
    (hdocuments : ¬Taken codec K e c.name_ doc.id_ doc.id_)
    (hunlisted : ∀ f ∉ e.getIndexNames c.name_, indexFamily c.name_ f ∈ e.columnFamilies_ →
      hasIndexField doc.data_ f = true → ∃ key, doc.EntryAt codec f key ∧
      e.lookup (indexFamily c.name_ f) key = some doc.id_) :
    IndexComplete codec K (e.applyAll ws) := by
  have hws := DocumentCall.batch_of_steps hsteps
  intro a ha g hfamily id d hd hfield
  rw [StorageEngine.mem_applyAll] at hfamily
  by_cases hnew : a = c.name_ ∧ id = doc.id_
  · -- the document is the one just stored
    obtain ⟨rfl, rfl⟩ := hnew
    rw [hws.document_eq (hmem _ ((hws _).mpr (Or.inr rfl)))] at hd
    obtain rfl := Option.some.inj hd
    by_cases hg : g ∈ e.getIndexNames c.name_
    · obtain ⟨key, hat⟩ := DocumentCall.exists_entryAt hsteps hg hfield
      exact ⟨key, hat, rfl, hws.lookup_entry hg hfamily hat⟩
    · -- no entry is written, and the one that is there stays
      obtain ⟨key, hat, hlookup⟩ := hunlisted g hg hfamily hfield
      refine ⟨key, hat, rfl, ?_⟩
      rw [hws.lookup_of_not (fun hn => indexFamily_ne c.name_ g hn.1), hlookup]
      intro f hf hsame _
      exact hg (indexFamily_injective hsame ▸ hf)
  · have hdocument : (e.applyAll ws).lookup a id = e.lookup a id :=
      hws.lookup_of_not hnew fun f hf hsame hat => (hentries f hf id hat).1 (hsame ▸ ha)
    refine h.congr_of ha hfamily hd hfield hdocument fun key hat hdoc hid hlookup => ?_
    by_cases hwritten : ∃ f ∈ e.getIndexNames c.name_, indexFamily a g = indexFamily c.name_ f ∧
        doc.EntryAt codec f key
    · -- a key that is not taken is of a document with the same id
      obtain ⟨f, hf, hsame, hdat⟩ := hwritten
      have hids := id_eq_of_not_taken (hsame ▸ (hentries f hf key hdat).2) ha hdoc hat
      rw [hsame, hws.lookup_entry hf (hsame ▸ hfamily) hdat, ← hids, hid]
    · rw [hws.lookup_of_not _ fun f hf hsame hdat => hwritten ⟨f, hf, hsame, hdat⟩, hlookup]
      rintro ⟨hn, rfl⟩
      rw [← hn] at hdocuments
      exact hat.ne_id (id_eq_of_not_taken hdocuments ha hdoc hat).symm

/-- A document that is removed takes no entry of another one with it, under the
condition. -/
theorem IndexComplete.remove (h : IndexComplete codec K e) {c : Collection} {doc : Document}
    {id : Bytes} {ws : List Write} (hdoc : e.document codec c.name_ id = some doc)
    (hws : DocumentCall.IsBatch codec c doc (e.getIndexNames c.name_) none id none ws)
    (hmem : ∀ x ∈ ws, x.family ∈ e.columnFamilies_) (htaken : ¬Taken codec K e c.name_ id id)
    (hown : ∀ f ∈ e.getIndexNames c.name_, hasIndexField doc.data_ f = true → ∀ a ∈ K, ∀ g,
      indexFamily a g = indexFamily c.name_ f → a = c.name_) :
    IndexComplete codec K (e.applyAll ws) := by
  intro a ha g hfamily i d hd hfield
  rw [StorageEngine.mem_applyAll] at hfamily
  obtain ⟨serialized, hserialized, -⟩ := Option.bind_eq_some_iff.mp hd
  obtain ⟨hold, hother, -⟩ := hws.lookup_of_removed hmem hserialized
  refine h.congr_of ha hfamily hd hfield (hserialized.trans hold.symm)
    fun key hat hd' hid hlookup => ?_
  rw [hws.lookup_of_not, hlookup]
  · rintro ⟨hn, rfl⟩
    rw [← hn] at htaken
    exact hat.ne_id (id_eq_of_not_taken htaken ha hd' hat).symm
  · -- one key of an index holds one id
    intro f hf hsame hat'
    obtain rfl := hown f hf hat'.hasField a ha g hsame
    obtain rfl := indexFamily_injective hsame
    obtain ⟨key', hkey', -, hlookup'⟩ := h _ ha g hfamily id doc hdoc hat'.hasField
    obtain rfl := hkey'.unique hat'
    exact hother ⟨rfl, Option.some.inj (hlookup.symm.trans hlookup')⟩

/-- An index that is built, under the condition, is complete, and so are the others. -/
theorem IndexComplete.build (h : IndexComplete codec K e) (hids : IdsAgreeIn codec K e)
    {c : Collection} {index : Bytes} (hbuilt : Collection.Built codec c index e e')
    (hlisted : c.getIndexCfName index ∉ e.columnFamilies_ → ∀ a ∈ K, ∀ g,
      c.getIndexCfName index = indexFamily a g → a ≠ c.name_ → ∀ id doc,
      e.document codec a id = some doc → hasIndexField doc.data_ g = false)
    (hentries : ∀ id doc, e.document codec c.name_ id = some doc →
      hasIndexField doc.data_ index = true → c.getIndexCfName index ∉ K ∧
      ∀ key, doc.EntryAt codec index key →
      ¬Taken codec K e (c.getIndexCfName index) key doc.id_) : IndexComplete codec K e' := by
  intro a ha g hfamily id doc hdoc hfield
  have hout : StaysOut codec K e (.createIndex c index) :=
    fun id doc hdoc hfield => (hentries id doc hdoc hfield).1
  have hdocument : e'.lookup a id = e.lookup a id := hbuilt.lookup_of_staysOut hout ha
  have hdoc₀ : e.document codec a id = some doc := by
    rwa [StorageEngine.document, hdocument] at hdoc
  have hid : doc.id_ = id := hids.id_eq ha hdoc₀
  by_cases hn : c.getIndexCfName index = indexFamily a g
  · -- an entry that is written there is of the document
    have hown {key id' : Bytes} {doc' : Document} (hat : doc.EntryAt codec g key)
        (hdoc' : e.document codec c.name_ id' = some doc') (hat' : doc'.EntryAt codec index key) :
        doc'.id_ = id :=
      hid ▸ (id_eq_of_not_taken (hn ▸ (hentries id' doc' hdoc' hat'.hasField).2 key hat') ha hdoc₀
        hat).symm
    by_cases hac : a = c.name_
    · subst hac
      obtain rfl := indexFamily_injective hn
      obtain ⟨key, hat, id', doc', hdoc', hat', hlookup⟩ := hbuilt.exists_entry hdoc₀ hfield
      exact ⟨key, hat, hid, hlookup.trans (congrArg some (hown hat hdoc' hat'))⟩
    · have hthere : indexFamily a g ∈ e.columnFamilies_ := not_not.mp fun hnot =>
        absurd hfield (by simp [hlisted (hn ▸ hnot) a ha g hn hac id doc hdoc₀])
      refine h.congr_of ha hthere hdoc hfield hdocument fun key hat _ _ hlookup => ?_
      rcases hbuilt.entry_cases key with hold | ⟨id', doc', hdoc', hat', hnew⟩
      · rw [← hn, hold, hn, hlookup]
      · rw [← hn, hnew, hown hat hdoc' hat']
  · have hthere : indexFamily a g ∈ e.columnFamilies_ :=
      (hbuilt.mem_or_eq hfamily).resolve_right fun heq => hn heq.symm
    refine h.congr_of ha hthere hdoc hfield hdocument fun key _ _ _ hlookup => ?_
    rw [hbuilt.lookup_other fun heq => hn heq.symm, hlookup]

/-- **An operation that meets the condition keeps the indexes complete.** -/
theorem IndexComplete.okStep (h : IndexComplete codec K e) (hids : IdsAgreeIn codec K e)
    {op : Operation} (hcondition : CompleteCondition codec K e op) (hstep : op.OkStep codec e e') :
    IndexComplete codec (op.collections K) e' := by
  cases op with
  | createCollection name =>
    obtain ⟨hname, hdb, rfl⟩ := Operation.createCollection_okStep hstep
    intro a ha g hfamily id doc hdoc hfield
    have hsame (n k : Bytes) : (e.withFamilies (e.columnFamilies_.insert name ∅)).lookup n k =
        e.lookup n k := StorageEngine.lookup_insert_empty hname hdb
    have hdoc₀ : e.document codec a id = some doc := by
      rwa [StorageEngine.document, hsame] at hdoc
    rcases ha with rfl | ha
    · -- the collection is empty
      obtain ⟨serialized, hlookup, -⟩ := Option.bind_eq_some_iff.mp hdoc₀
      exact absurd (StorageEngine.mem_of_lookup hlookup) hname
    rcases (StorageEngine.mem_insert_empty hdb).mp hfamily with hn | hfamily
    · exact absurd hfield (by simp [hcondition a ha g hn.symm id doc hdoc₀])
    · refine h.congr_of ha hfamily hdoc hfield (hsame _ _) fun key _ _ _ hlookup => ?_
      rw [hsame, hlookup]
  | document c call =>
    obtain ⟨ws, hcomplete, rfl⟩ := Operation.document_okStep hstep
    rcases DocumentCall.completes_cases hcomplete with
      ⟨doc, hstored, hsteps⟩ | ⟨doc, id, rfl, hdoc, hsteps⟩
    · cases call with
      | delete id => exact absurd hstored (by simp [DocumentCall.stored])
      | _ =>
        obtain ⟨hentries, hdocuments, hunlisted⟩ := hcondition doc hstored
        exact h.store hsteps hcomplete.2 hentries hdocuments hunlisted
    · exact h.remove hdoc (DocumentCall.batch_of_steps hsteps) hcomplete.2 hcondition.1
        (hcondition.2 doc hdoc)
  | createIndex c index =>
    exact h.build hids (Collection.built_of_okStep hstep) hcondition.1 hcondition.2
  | deleteIndex c index =>
    obtain ⟨hmem, rfl⟩ := Operation.deleteIndex_okStep hstep
    intro a ha g hfamily id doc hdoc hfield
    obtain ⟨hne, hfamily⟩ := (StorageEngine.mem_erase_family hmem).mp hfamily
    have hdocument : a ≠ c.getIndexCfName index := ha.2
    refine h.congr_of ha.1 hfamily hdoc hfield ?_ fun key _ _ _ hlookup => ?_
    · rw [StorageEngine.lookup_erase hmem, if_neg hdocument]
    · rw [StorageEngine.lookup_erase hmem, if_neg hne, hlookup]

theorem indexComplete_fresh : IndexComplete codec K .fresh := by
  intro c _ f _ id doc hdoc
  rw [StorageEngine.document, StorageEngine.lookup_fresh] at hdoc
  cases hdoc

/-- **Runs whose operations meet the condition reach complete states only.** -/
theorem indexComplete_of_okRun (h : OkRun codec (CompleteCondition codec) K e) :
    IndexComplete codec K e := by
  have hboth : IdsAgreeIn codec K e ∧ IndexComplete codec K e := by
    refine h.invariant (I := fun K e => IdsAgreeIn codec K e ∧ IndexComplete codec K e)
      ⟨idsAgreeIn_fresh, indexComplete_fresh⟩ ?_
    rintro K₁ e₁ e₂ op ⟨hids, hcomplete⟩ hcondition hstep
    exact ⟨hids.okStep (hcondition.staysOut hstep) hstep, hcomplete.okStep hids hcondition hstep⟩
  exact hboth.2

/-! ### A run that meets the condition, and one that does not -/

/-- A document with a string in the field `f`. -/
def titled (id title : Bytes) : Document := ⟨id, .object [(Bytes.ofText "f", .string title)]⟩

/-- A document is created in an indexed collection. -/
def indexedBefore : List Operation :=
  [.createCollection letterC.name_, .createIndex letterC (Bytes.ofText "f"),
    .document letterC (.create ⟨0, fun _ => 0⟩ (titled (Bytes.ofText "b#c") (Bytes.ofText "a")))]

/-- And then another one, with the same key. -/
def sharedKey : List Operation :=
  indexedBefore ++
    [.document letterC (.create ⟨0, fun _ => 0⟩ (titled (Bytes.ofText "c") (Bytes.ofText "a#b")))]

section Bare

variable {c : Collection} (hK : ∀ a ∈ K, e.contents a = some ∅)

include hK

/-- An index may be built where the collections have no documents. -/
theorem completeCondition_createIndex (hc : c.name_ ∈ K) (f : Bytes) :
    CompleteCondition codec K e (.createIndex c f) := by
  have hnone {a id : Bytes} {doc : Document} (ha : a ∈ K) : e.document codec a id ≠ some doc := by
    rw [StorageEngine.document, StorageEngine.lookup_of_empty (hK a ha)]
    exact fun h => by cases h
  exact ⟨fun _ a ha g _ _ id doc hdoc => absurd hdoc (hnone ha),
    fun id doc hdoc => absurd hdoc (hnone hc)⟩

/-- The first document may be created, where the indexes of its collection are listed. -/
theorem completeCondition_create (hown : ∀ f, HasOwnFamily K c.name_ f)
    (hsep : Separable c.name_) (entropy : Entropy) (doc : Document) :
    CompleteCondition codec K e (.document c (.create entropy doc)) := by
  refine fun d _ => ⟨fun f _ key _ => ⟨?_, not_taken_of_empty hK⟩, not_taken_of_empty hK, ?_⟩
  · exact (hown f).1
  · exact fun f hf hfamily => absurd (StorageEngine.mem_getIndexNames.mpr ⟨hfamily, hsep⟩) hf

end Bare

theorem indexComplete_indexedBefore :
    IndexComplete .standard (Operation.collectionsAfter {kDefaultColumnFamilyName} indexedBefore)
      (Operation.afterAll .standard .fresh indexedBefore) ∧
    letterC.name_ ∈ Operation.collectionsAfter {kDefaultColumnFamilyName} indexedBefore ∧
    (Operation.afterAll .standard .fresh indexedBefore).lookup
      (indexFamily letterC.name_ (Bytes.ofText "f")) (Bytes.ofText "a#b#c") =
        some (Bytes.ofText "b#c") := by
  have hsep : Separable letterC.name_ := by decide
  have hok : Operation.acceptedAll .standard .fresh indexedBefore = true := by decide +kernel
  obtain ⟨hcreate, hindex, hdocument, -⟩ := by
    simpa only [indexedBefore, Operation.acceptedAll, Bool.and_eq_true] using hok
  have h₁ : OkRun .standard (CompleteCondition .standard) _ _ :=
    OkRun.fresh.step (.createCollection letterC.name_) ?_ (Operation.okStep_after hcreate)
  have h₂ := h₁.step (.createIndex _ _) ?_ (Operation.okStep_after hindex)
  have h₃ := h₂.step (.document _ (.create _ _)) ?_ (Operation.okStep_after hdocument)
  · exact ⟨indexComplete_of_okRun h₃, Or.inl rfl, by decide +kernel⟩
  · refine completeCondition_create ?_ ?_ hsep _ _
    · rintro a (rfl | rfl) <;> decide +kernel
    · exact fun f => hasOwnFamily_of_separable (by rintro a (rfl | rfl) <;> decide) hsep f
  · refine completeCondition_createIndex ?_ (Or.inl rfl) _
    rintro a (rfl | rfl) <;> decide +kernel
  · rintro a rfl g hn
    exact absurd hn (ne_indexFamily_of_not_delimited hsep.not_delimited _ g)

/-- **Two documents share a key**: the entry of the first one is lost. -/
theorem not_indexComplete_of_shared_key :
    OkRun .standard (fun _ _ _ => True)
      (Operation.collectionsAfter {kDefaultColumnFamilyName} sharedKey)
      (Operation.afterAll .standard .fresh sharedKey) ∧
    ¬IndexComplete .standard (Operation.collectionsAfter {kDefaultColumnFamilyName} sharedKey)
      (Operation.afterAll .standard .fresh sharedKey) := by
  refine ⟨OkRun.fresh.afterAll sharedKey (by decide +kernel), fun h => ?_⟩
  obtain ⟨key, ⟨value, k, hvalue, hk, hkey⟩, -, hlookup⟩ :=
    h letterC.name_ (Or.inl rfl) (Bytes.ofText "f") (by decide +kernel) (Bytes.ofText "b#c")
      ⟨Bytes.ofText "b#c", .object [(idField, .string (Bytes.ofText "b#c")),
        (Bytes.ofText "f", .string (Bytes.ofText "a"))]⟩ rfl rfl
  obtain rfl : Json.string (Bytes.ofText "a") = value := Option.some.inj (hvalue ▸ rfl)
  obtain rfl : Bytes.ofText "a" = k := Except.ok.inj hk
  rw [hkey] at hlookup
  exact absurd hlookup (by decide +kernel)

end AnuDB
