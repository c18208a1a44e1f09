import AnuDB.Found
import AnuDB.Runs

/-!
# Index soundness

The indexes of a collection are sound if every entry of them is of a document that is there, under
the key of the value the document has (`AnuDB.IndexSound`). What queries answer is then sound too:
every id is of a document that is there, and that has a value the query asks for
(`AnuDB.IndexSound.answersSound`).

`createDocument` writes the entries of the document it stores and looks at no other, so a document
that is stored over another one leaves the entries of the other behind: soundness is not an
invariant (`AnuDB.not_indexSound_of_overwrite`). A collection whose name does not come back out of
the names of its indexes has them written by no document call, and `deleteDocument` leaves their
entries behind. And one family may be the index of two collections, or a collection itself.

What the writes do keep is said by `AnuDB.SoundCondition`, a condition on the state an operation is
made in: no index holds the id that is written under a key other than the new one, or the id that
is removed in an index that is not listed, and entries are written where no other collection has
an index or documents. Runs whose operations meet it never reach an unsound state
(`AnuDB.indexSound_of_okRun`).
-/

namespace AnuDB

variable {codec : Codec} {K : Set Bytes} {e e' : StorageEngine}

/-- **Every entry of every index of a collection is of a document that is there**: the collection
holds a document with the id, the document has the field, and the key is of its value. The indexes
are those on all fields that have a family, listed or not. -/
def IndexSound (codec : Codec) (K : Set Bytes) (e : StorageEngine) : Prop :=
  ∀ c ∈ K, ∀ f key id, e.lookup (indexFamily c f) key = some id →
    ∃ doc, e.document codec c id = some doc ∧ doc.id_ = id ∧ doc.EntryAt codec f key

/-- **Every id a query answers with is of a document that is there**, and the document has a value
that a comparison of the query looks for. -/
def AnswersSound (codec : Codec) (K : Set Bytes) (e : StorageEngine) : Prop :=
  ∀ c : Collection, c.name_ ∈ K → ∀ query docIds, c.findDocument codec e query = .ok docIds →
    ∀ id ∈ docIds, ∃ doc, e.document codec c.name_ id = some doc ∧ doc.id_ = id ∧
      ∃ op ops f key, query.Mentions op ops ∧ LooksAt codec op ops f key ∧ doc.EntryAt codec f key

/-- **The condition on an operation** under which it keeps the indexes sound. -/
def SoundCondition (codec : Codec) (K : Set Bytes) (e : StorageEngine) : Operation → Prop
  | .createCollection name => ∀ f key, e.lookup (indexFamily name f) key = none
  | .document c (.delete id) => ∀ doc, e.document codec c.name_ id = some doc →
      (∀ f ∈ e.getIndexNames c.name_, hasIndexField doc.data_ f = true →
        indexFamily c.name_ f ∉ K) ∧
      ∀ f ∉ e.getIndexNames c.name_, ∀ key, e.lookup (indexFamily c.name_ f) key ≠ some id
  | .document c call => ∀ doc, call.stored codec c e = some doc →
      (∀ a ∈ K, ∀ g, c.name_ ≠ indexFamily a g) ∧
      (∀ f ∈ e.getIndexNames c.name_, hasIndexField doc.data_ f = true →
        HasOwnFamily K c.name_ f) ∧
      ∀ f key, e.lookup (indexFamily c.name_ f) key = some doc.id_ → doc.EntryAt codec f key
  | .createIndex c f => ∀ id doc, e.document codec c.name_ id = some doc →
      hasIndexField doc.data_ f = true → HasOwnFamily K c.name_ f
  | .deleteIndex .. => True

/-- Under the condition entries are written into no collection. -/
theorem SoundCondition.staysOut {op : Operation} (h : SoundCondition codec K e op) :
    StaysOut codec K e op := by
  cases op with
  | document c call =>
    intro doc hstored f hf hfield
    cases call with
    | delete id => exact absurd hstored (by simp [DocumentCall.stored])
    | _ => exact ((h doc hstored).2.1 f hf hfield).1
  | createIndex c f => exact fun id doc hdoc hfield => (h id doc hdoc hfield).1
  | _ => trivial

/-- **What queries answer is sound where the indexes are.** -/
theorem IndexSound.answersSound (h : IndexSound codec K e) : AnswersSound codec K e := by
  intro c hc query docIds hfind id hid
  obtain ⟨op, ops, f, key, hmentions, hlooks, hmem⟩ := Collection.exists_entry_of_found hfind hid
  obtain ⟨doc, hdoc, hid, hat⟩ := h c.name_ hc f key id (StorageEngine.mem_cursor.mp hmem)
  exact ⟨doc, hdoc, hid, op, ops, f, key, hmentions, hlooks, hat⟩

/-- Soundness, where neither an entry nor the document has changed. -/
theorem IndexSound.congr_of (h : IndexSound codec K e) {c f key id : Bytes} (hc : c ∈ K)
    (hentry : e.lookup (indexFamily c f) key = some id) (hdocument : e'.lookup c id = e.lookup c id) :
    ∃ doc, e'.document codec c id = some doc ∧ doc.id_ = id ∧ doc.EntryAt codec f key := by
  obtain ⟨doc, hdoc, hid, hat⟩ := h c hc f key id hentry
  exact ⟨doc, by rwa [StorageEngine.document, hdocument], hid, hat⟩

/-- A document that is stored, under the condition, keeps the indexes sound. -/
theorem IndexSound.store (h : IndexSound codec K e) {c : Collection} {doc : Document}
    {ws : List Write} (hws : DocumentCall.IsBatch codec c doc (e.getIndexNames c.name_)
      (some doc.id_) doc.id_ (some (doc.to_msgpack codec)) ws)
    (hmem : ∀ x ∈ ws, x.family ∈ e.columnFamilies_) (hc : ∀ a ∈ K, ∀ g, c.name_ ≠ indexFamily a g)
    (hown : ∀ f ∈ e.getIndexNames c.name_, hasIndexField doc.data_ f = true →
      HasOwnFamily K c.name_ f)
    (hstale : ∀ f key, e.lookup (indexFamily c.name_ f) key = some doc.id_ →
      doc.EntryAt codec f key) : IndexSound codec K (e.applyAll ws) := by
  intro a ha g key id hentry
  have hstored : (e.applyAll ws).document codec c.name_ doc.id_ = some doc :=
    hws.document_eq (hmem _ ((hws _).mpr (Or.inr rfl)))
  by_cases hnew : ∃ f ∈ e.getIndexNames c.name_, indexFamily a g = indexFamily c.name_ f ∧
      doc.EntryAt codec f key
  · -- the entry is the one just written, and the index is of no other collection
    obtain ⟨f, hf, hfamily, hat⟩ := hnew
    obtain rfl := (hown f hf hat.hasField).2 a ha g hfamily
    obtain rfl := indexFamily_injective hfamily
    rw [hws.lookup_entry hf (StorageEngine.mem_getIndexNames.mp hf).1 hat] at hentry
    obtain rfl := Option.some.inj hentry
    exact ⟨doc, hstored, rfl, hat⟩
  · -- the entry was there
    rw [hws.lookup_of_not (fun hn => hc a ha g hn.1.symm) fun f hf hfamily hat =>
      hnew ⟨f, hf, hfamily, hat⟩] at hentry
    by_cases hid : a = c.name_ ∧ id = doc.id_
    · obtain ⟨rfl, rfl⟩ := hid
      exact ⟨doc, hstored, rfl, hstale g key hentry⟩
    · refine h.congr_of ha hentry (hws.lookup_of_not hid fun f hf hfamily hat => ?_)
      exact (hown f hf hat.hasField).1 (hfamily ▸ ha)

/-- A document that is removed, under the condition, takes its entries with it. -/
theorem IndexSound.remove (h : IndexSound codec K e) {c : Collection} {doc : Document} {id : Bytes}
    {ws : List Write} (hdoc : e.document codec c.name_ id = some doc)
    (hws : DocumentCall.IsBatch codec c doc (e.getIndexNames c.name_) none id none ws)
    (hmem : ∀ x ∈ ws, x.family ∈ e.columnFamilies_)
    (hout : ∀ f ∈ e.getIndexNames c.name_, hasIndexField doc.data_ f = true →
      indexFamily c.name_ f ∉ K)
    (hunlisted : ∀ f ∉ e.getIndexNames c.name_, ∀ key,
      e.lookup (indexFamily c.name_ f) key ≠ some id) : IndexSound codec K (e.applyAll ws) := by
  intro a ha g key i hentry
  obtain ⟨hold, -, hkept⟩ := hws.lookup_of_removed hmem hentry
  have hother : ¬(a = c.name_ ∧ i = id) := by
    rintro ⟨rfl, rfl⟩
    obtain ⟨doc', hdoc', -, hat⟩ := h _ ha g key i hold
    obtain rfl := Option.some.inj (hdoc'.symm.trans hdoc)
    by_cases hg : g ∈ e.getIndexNames c.name_
    · exact hkept g hg rfl hat
    · exact hunlisted g hg key hold
  refine h.congr_of ha hold (hws.lookup_of_not hother fun f hf hfamily hat => ?_)
  exact hout f hf hat.hasField (hfamily ▸ ha)

/-- An index that is built, under the condition, is sound. -/
theorem IndexSound.build (h : IndexSound codec K e) (hids : IdsAgreeIn codec K e) {c : Collection}
    {index : Bytes} (hbuilt : Collection.Built codec c index e e')
    (hown : ∀ id doc, e.document codec c.name_ id = some doc →
      hasIndexField doc.data_ index = true → HasOwnFamily K c.name_ index) :
    IndexSound codec K e' := by
  intro a ha g key i hentry
  have hout : StaysOut codec K e (.createIndex c index) :=
    fun id doc hdoc hfield => (hown id doc hdoc hfield).1
  have hdocument (k : Bytes) : e'.lookup a k = e.lookup a k := hbuilt.lookup_of_staysOut hout ha
  by_cases hfamily : indexFamily a g = c.getIndexCfName index
  · rcases hbuilt.entry_cases key with hold | ⟨id, doc, hdoc, hat, hnew⟩
    · rw [hfamily, hold, ← hfamily] at hentry
      exact h.congr_of ha hentry (hdocument i)
    · -- the index is of the collection it was built from, and of no other
      obtain rfl := (hown id doc hdoc hat.hasField).2 a ha g hfamily
      obtain rfl := indexFamily_injective hfamily
      obtain rfl : doc.id_ = i := Option.some.inj (hnew.symm.trans hentry)
      refine ⟨doc, ?_, rfl, hat⟩
      rw [StorageEngine.document, hdocument, hids.id_eq ha hdoc]
      exact hdoc
  · rw [hbuilt.lookup_other hfamily] at hentry
    exact h.congr_of ha hentry (hdocument i)

/-- **An operation that meets the condition keeps the indexes sound.** -/
theorem IndexSound.okStep (h : IndexSound codec K e) (hids : IdsAgreeIn codec K e) {op : Operation}
    (hcondition : SoundCondition codec K e op) (hstep : op.OkStep codec e e') :
    IndexSound codec (op.collections K) e' := by
  cases op with
  | createCollection name =>
    obtain ⟨hname, hdb, rfl⟩ := Operation.createCollection_okStep hstep
    intro a ha g key i hentry
    rw [StorageEngine.lookup_insert_empty hname hdb] at hentry
    rcases ha with rfl | ha
    · rw [hcondition g key] at hentry
      cases hentry
    · exact h.congr_of ha hentry (StorageEngine.lookup_insert_empty hname hdb)
  | document c call =>
    obtain ⟨ws, hcomplete, rfl⟩ := Operation.document_okStep hstep
    rcases DocumentCall.completes_cases hcomplete with
      ⟨doc, hstored, hsteps⟩ | ⟨doc, id, rfl, hdoc, hsteps⟩
    · cases call with
      | delete id => exact absurd hstored (by simp [DocumentCall.stored])
      | _ =>
        obtain ⟨hc, hown, hstale⟩ := hcondition doc hstored
        exact h.store (DocumentCall.batch_of_steps hsteps) hcomplete.2 hc hown hstale
    · obtain ⟨hout, hunlisted⟩ := hcondition doc hdoc
      exact h.remove hdoc (DocumentCall.batch_of_steps hsteps) hcomplete.2 hout hunlisted
  | createIndex c index => exact h.build hids (Collection.built_of_okStep hstep) hcondition
  | deleteIndex c index =>
    obtain ⟨hmem, rfl⟩ := Operation.deleteIndex_okStep hstep
    intro a ha g key i hentry
    have hne : a ≠ c.getIndexCfName index := ha.2
    rw [StorageEngine.lookup_erase hmem] at hentry
    split_ifs at hentry
    refine h.congr_of ha.1 hentry ?_
    rw [StorageEngine.lookup_erase hmem, if_neg hne]

theorem indexSound_fresh : IndexSound codec K .fresh := by
  intro c _ f key id hentry
  rw [StorageEngine.lookup_fresh] at hentry
  cases hentry

/-- **Runs whose operations meet the condition reach sound states only**, and there every answer of
a query is sound. -/
theorem indexSound_of_okRun (h : OkRun codec (SoundCondition codec) K e) :
    IndexSound codec K e ∧ AnswersSound codec K e := by
  have hboth : IdsAgreeIn codec K e ∧ IndexSound codec K e := by
    refine h.invariant (I := fun K e => IdsAgreeIn codec K e ∧ IndexSound codec K e)
      ⟨idsAgreeIn_fresh, indexSound_fresh⟩ ?_
    rintro K₁ e₁ e₂ op ⟨hids, hsound⟩ hcondition hstep
    exact ⟨hids.okStep hcondition.staysOut hstep, hsound.okStep hids hcondition hstep⟩
  exact ⟨hboth.2, hboth.2.answersSound⟩

/-! ### A run that meets the condition, and one that does not -/

/-- A document is created, and then an index of it. -/
def indexedAfterwards : List Operation :=
  [.createCollection letterC.name_, .document letterC (.create ⟨0, fun _ => 0⟩ (numbered 1)),
    .createIndex letterC (Bytes.ofText "f")]

/-- A document of an indexed collection is created twice, with another value. -/
def overwritten : List Operation :=
  [.createCollection letterC.name_, .createIndex letterC (Bytes.ofText "f"),
    .document letterC (.create ⟨0, fun _ => 0⟩ (numbered 1)),
    .document letterC (.create ⟨0, fun _ => 0⟩ (numbered 2))]

theorem indexSound_indexedAfterwards :
    (IndexSound .standard (Operation.collectionsAfter {kDefaultColumnFamilyName} indexedAfterwards)
        (Operation.afterAll .standard .fresh indexedAfterwards) ∧
      AnswersSound .standard
        (Operation.collectionsAfter {kDefaultColumnFamilyName} indexedAfterwards)
        (Operation.afterAll .standard .fresh indexedAfterwards)) ∧
    letterC.name_ ∈ Operation.collectionsAfter {kDefaultColumnFamilyName} indexedAfterwards ∧
    (Operation.afterAll .standard .fresh indexedAfterwards).lookup
      (indexFamily letterC.name_ (Bytes.ofText "f"))
      (encodeIntKey .standard 1 ++ separator ++ Bytes.ofText "a") = some (Bytes.ofText "a") := by
  have hown (f : Bytes) : HasOwnFamily {letterC.name_, kDefaultColumnFamilyName} letterC.name_ f :=
    hasOwnFamily_of_separable (by rintro a (rfl | rfl) <;> decide) (by decide) f
  have hok : Operation.acceptedAll .standard .fresh indexedAfterwards = true := by decide +kernel
  obtain ⟨hcreate, hdocument, hindex, -⟩ := by
    simpa only [indexedAfterwards, Operation.acceptedAll, Bool.and_eq_true] using hok
  have h₁ : OkRun .standard (SoundCondition .standard) _ _ :=
    OkRun.fresh.step (.createCollection letterC.name_) ?_ (Operation.okStep_after hcreate)
  have h₂ := h₁.step (.document letterC _) ?_ (Operation.okStep_after hdocument)
  have h₃ := h₂.step (.createIndex letterC _) ?_ (Operation.okStep_after hindex)
  · exact ⟨indexSound_of_okRun h₃, Or.inl rfl, by decide +kernel⟩
  · exact fun id doc _ _ => hown _
  · refine fun doc _ => ⟨?_, fun f _ _ => hown f, fun f key hentry => ?_⟩
    · rintro a (rfl | rfl) g <;>
        exact ne_indexFamily_of_not_delimited (Separable.not_delimited (by decide)) _ g
    · -- there is no index yet
      have hnone : ∀ n ∈ (Operation.after .standard .fresh
          (.createCollection letterC.name_)).columnFamilies_.keys, ¬index_delimiter_ <:+: n := by
        decide +kernel
      exact absurd (delimiter_infix_indexFamily letterC.name_ f)
        (hnone _ (Std.ExtTreeMap.mem_keys.mpr (StorageEngine.mem_of_lookup hentry)))
  · intro f key
    exact StorageEngine.lookup_fresh _ _

/-- **A document that is stored over another one leaves a stale entry**: the index keeps the old
value's key, and the document has the new value. A query for the old value still finds it. -/
theorem not_indexSound_of_overwrite :
    OkRun .standard (fun _ _ _ => True)
      (Operation.collectionsAfter {kDefaultColumnFamilyName} overwritten)
      (Operation.afterAll .standard .fresh overwritten) ∧
    ¬IndexSound .standard (Operation.collectionsAfter {kDefaultColumnFamilyName} overwritten)
      (Operation.afterAll .standard .fresh overwritten) ∧
    ¬AnswersSound .standard (Operation.collectionsAfter {kDefaultColumnFamilyName} overwritten)
      (Operation.afterAll .standard .fresh overwritten) := by
  have hat {doc : Document} {key : Bytes}
      (hdoc : (Operation.afterAll .standard .fresh overwritten).document .standard letterC.name_
        (Bytes.ofText "a") = some doc) (hat : doc.EntryAt .standard (Bytes.ofText "f") key) :
      key = encodeIntKey .standard 2 ++ separator ++ Bytes.ofText "a" := by
    obtain ⟨value, k, hvalue, hk, rfl⟩ := hat
    obtain rfl : (⟨Bytes.ofText "a", .object [(idField, .string (Bytes.ofText "a")),
        (Bytes.ofText "f", .integer 2)]⟩ : Document) = doc := Option.some.inj (hdoc ▸ rfl)
    obtain rfl : Json.integer 2 = value := Option.some.inj (hvalue ▸ rfl)
    obtain rfl : encodeIntKey .standard 2 = k := Except.ok.inj hk
    rfl
  refine ⟨OkRun.fresh.afterAll overwritten (by decide +kernel), fun h => ?_, fun h => ?_⟩
  · obtain ⟨doc, hdoc, -, hentry⟩ := h letterC.name_ (Or.inl rfl) (Bytes.ofText "f")
      (encodeIntKey .standard 1 ++ separator ++ Bytes.ofText "a") (Bytes.ofText "a")
      (by decide +kernel)
    exact absurd (hat hdoc hentry) (by decide +kernel)
  · -- the only comparison of the query looks for the old value
    obtain ⟨doc, hdoc, -, op, ops, f, key, hmentions, ⟨operand, hfirst, hlooks⟩, hentry⟩ :=
      h letterC (Or.inl rfl)
        (.object [(Bytes.ofText "$eq", .object [(Bytes.ofText "f", .integer 1)])])
        [Bytes.ofText "a"] (by rfl) (Bytes.ofText "a") List.mem_cons_self
    obtain ⟨rfl, rfl⟩ : op = Bytes.ofText "$eq" ∧
        ops = .object [(Bytes.ofText "f", .integer 1)] := by
      cases hmentions with
      | member hmembers hmem =>
        obtain rfl := Except.ok.inj hmembers
        exact Prod.mk.inj (List.mem_singleton.mp hmem)
      | clause hmembers hmem =>
        obtain rfl := Except.ok.inj hmembers
        cases (Prod.mk.inj (List.mem_singleton.mp hmem)).2
    obtain ⟨rfl, rfl⟩ := Prod.mk.inj (Except.ok.inj hfirst)
    rw [hat hdoc hentry] at hlooks
    rcases hlooks with horder | ⟨value, hvalue, ⟨-, hbegins⟩ | ⟨hgt, -⟩ | ⟨hlt, -⟩⟩
    · exact absurd horder (by decide)
    · obtain rfl : encodeIntKey .standard 1 = value := Except.ok.inj hvalue
      exact absurd hbegins (by decide +kernel)
    · exact absurd hgt (by decide)
    · exact absurd hlt (by decide)

end AnuDB
