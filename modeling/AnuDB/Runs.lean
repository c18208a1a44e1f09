import AnuDB.Index
import Mathlib.Data.Set.Insert

/-!
# Runs, and the collections created in them

What is a collection is not written down anywhere: its family looks like that of an index, and the
name of either may be the name of the other. So a run is looked at together with the names its
calls of `createCollection` have been given (`AnuDB.OkRun`), and what is claimed of collections and
of their indexes is claimed of these names.

A run can still make one family both things at once. Where no entry of an index is written into a
collection (`AnuDB.StaysOut`), the documents of the collections are under their own ids
(`AnuDB.IdsAgreeIn`).
-/

namespace AnuDB

variable {codec : Codec} {K : Set Bytes} {e e' : StorageEngine}
  {condition : Set Bytes → StorageEngine → Operation → Prop}

/-- **The collections there are after an operation**, where it reports OK. -/
def Operation.collections : Operation → Set Bytes → Set Bytes
  | .createCollection name, K => insert name K
  | .deleteIndex c index, K => K \ {c.getIndexCfName index}
  | _, K => K

/-- **The collections and the states a new database comes to** by operations that all report OK
and all meet the condition. The family RocksDB brings along is a collection from the start. -/
inductive OkRun (codec : Codec) (condition : Set Bytes → StorageEngine → Operation → Prop) :
    Set Bytes → StorageEngine → Prop
  | fresh : OkRun codec condition {kDefaultColumnFamilyName} .fresh
  | step {K : Set Bytes} {e e' : StorageEngine} (h : OkRun codec condition K e) (op : Operation)
      (hcondition : condition K e op) (hstep : op.OkStep codec e e') :
      OkRun codec condition (op.collections K) e'

/-- **What holds at first and is kept by every step holds in every state that is reached**, of the
collections there are then. -/
theorem OkRun.invariant {I : Set Bytes → StorageEngine → Prop}
    (hfresh : I {kDefaultColumnFamilyName} .fresh)
    (hstep : ∀ {K e e' op}, I K e → condition K e op → op.OkStep codec e e' →
      I (op.collections K) e') (h : OkRun codec condition K e) : I K e := by
  induction h with
  | fresh => exact hfresh
  | step h op hcondition hok ih => exact hstep ih hcondition hok

/-- The collections there are after the operations, one after the other. -/
def Operation.collectionsAfter (K : Set Bytes) (ops : List Operation) : Set Bytes :=
  ops.foldl (fun K op => op.collections K) K

/-- A run may go on with calls that all go through. -/
theorem OkRun.afterAll (h : OkRun codec (fun _ _ _ => True) K e) (ops : List Operation)
    (haccepted : Operation.acceptedAll codec e ops = true) :
    OkRun codec (fun _ _ _ => True) (Operation.collectionsAfter K ops)
      (Operation.afterAll codec e ops) := by
  induction ops generalizing K e with
  | nil => exact h
  | cons op ops ih =>
    obtain ⟨hop, hops⟩ := Bool.and_eq_true_iff.mp haccepted
    exact ih (h.step op trivial (Operation.okStep_after hop)) hops

/-! ### Families that are two things at once -/

/-- **An index has a family of its own**: it is no collection, and no index of another one. -/
def HasOwnFamily (K : Set Bytes) (c f : Bytes) : Prop :=
  indexFamily c f ∉ K ∧ ∀ a ∈ K, ∀ g, indexFamily a g = indexFamily c f → a = c

/-- Names that come back out of those of their indexes share no family. -/
theorem hasOwnFamily_of_separable {c : Bytes} (h : ∀ a ∈ K, Separable a) (hc : Separable c)
    (f : Bytes) : HasOwnFamily K c f := by
  refine ⟨fun hin => (h _ hin).not_delimited (delimiter_infix_indexFamily c f), ?_⟩
  intro a ha g hsame
  exact (h a ha).symm.trans (StorageEngine.owner_eq_of_indexFamily_eq hc hsame)

/-- **The entries an operation writes go to no collection.** -/
def StaysOut (codec : Codec) (K : Set Bytes) (e : StorageEngine) : Operation → Prop
  | .document c call => ∀ doc, call.stored codec c e = some doc → ∀ f ∈ e.getIndexNames c.name_,
      hasIndexField doc.data_ f = true → indexFamily c.name_ f ∉ K
  | .createIndex c f => ∀ id doc, e.document codec c.name_ id = some doc →
      hasIndexField doc.data_ f = true → c.getIndexCfName f ∉ K
  | _ => True

/-- Building an index leaves the documents of the collections as they are, where it stays out. -/
theorem Collection.Built.lookup_of_staysOut {c : Collection} {index n key : Bytes}
    (h : Collection.Built codec c index e e') (hout : StaysOut codec K e (.createIndex c index))
    (hn : n ∈ K) : e'.lookup n key = e.lookup n key := by
  by_cases hfamily : n = c.getIndexCfName index
  · subst hfamily
    rcases h.entry_cases key with hold | ⟨id, doc, hdoc, hat, -⟩
    · exact hold
    · exact absurd hn (hout id doc hdoc hat.hasField)
  · exact h.lookup_other hfamily

/-- **A stored document decodes, and the id in it is the key it is stored under**, in the
collections. -/
def IdsAgreeIn (codec : Codec) (K : Set Bytes) (e : StorageEngine) : Prop :=
  ∀ c ∈ K, ∀ id serialized, e.lookup c id = some serialized →
    ∃ doc, Document.from_msgpack codec serialized = .ok doc ∧ doc.id_ = id

theorem IdsAgreeIn.id_eq (h : IdsAgreeIn codec K e) {c id : Bytes} {doc : Document} (hc : c ∈ K)
    (hdoc : e.document codec c id = some doc) : doc.id_ = id := by
  obtain ⟨serialized, hlookup, hdecode⟩ := Option.bind_eq_some_iff.mp hdoc
  obtain ⟨doc', hok, hid⟩ := h c hc id serialized hlookup
  rw [hok] at hdecode
  obtain rfl : doc' = doc := Option.some.inj hdecode
  exact hid

theorem idsAgreeIn_fresh : IdsAgreeIn codec K .fresh := by
  intro c _ id serialized hlookup
  rw [StorageEngine.lookup_fresh] at hlookup
  cases hlookup

/-- Operations that write no entries into collections keep ids and keys in agreement. -/
theorem IdsAgreeIn.okStep {op : Operation} (h : IdsAgreeIn codec K e) (hout : StaysOut codec K e op)
    (hstep : op.OkStep codec e e') : IdsAgreeIn codec (op.collections K) e' := by
  intro n hn id serialized hlookup
  cases op with
  | createCollection name =>
    obtain ⟨hname, hdb, rfl⟩ := Operation.createCollection_okStep hstep
    rw [StorageEngine.lookup_insert_empty hname hdb] at hlookup
    rcases hn with rfl | hn
    · exact absurd (StorageEngine.mem_of_lookup hlookup) hname
    · exact h n hn id serialized hlookup
  | document c call =>
    obtain ⟨ws, hcomplete, rfl⟩ := Operation.document_okStep hstep
    rcases DocumentCall.completes_cases hcomplete with
      ⟨doc, hstored, hsteps⟩ | ⟨doc, id', -, -, hsteps⟩
    · have hbatch := DocumentCall.batch_of_steps hsteps
      by_cases hid : n = c.name_ ∧ id = doc.id_
      · obtain ⟨rfl, rfl⟩ := hid
        rw [hbatch.lookup_document (hcomplete.2 _ ((hbatch _).mpr (Or.inr rfl)))] at hlookup
        obtain rfl := Option.some.inj hlookup
        exact ⟨doc, Document.from_msgpack_to_msgpack codec doc, rfl⟩
      · rw [hbatch.lookup_of_not hid] at hlookup
        · exact h n hn id serialized hlookup
        · rintro f hf rfl hat
          exact hout doc hstored f hf hat.hasField hn
    · have hbatch := DocumentCall.batch_of_steps hsteps
      exact h n hn id serialized (hbatch.lookup_of_removed hcomplete.2 hlookup).1
  | createIndex c index =>
    rw [(Collection.built_of_okStep hstep).lookup_of_staysOut hout hn] at hlookup
    exact h n hn id serialized hlookup
  | deleteIndex c index =>
    obtain ⟨hmem, rfl⟩ := Operation.deleteIndex_okStep hstep
    have hne : n ≠ c.getIndexCfName index := hn.2
    rw [StorageEngine.lookup_erase hmem, if_neg hne] at hlookup
    exact h n hn.1 id serialized hlookup

end AnuDB
