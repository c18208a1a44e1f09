import AnuDB.Answers
import AnuDB.Concurrency
import AnuDB.DocumentMap
import AnuDB.Lib.Independence

/-!
# Do clients get into each other's way?

Calls on documents are under way together, on one collection or on several, and none of them waits
for another. What a call may come to in such a run is settled for the calls that go for the same
document, and there it is not good. Here the calls go for documents of their own.

A call on a document looks at it and at the names of the families, and writes it and its entries.
The entries of a document end with `#` and its id, so two documents have none in common unless one
of the ids ends with `#` and the other. If that is so of no two calls (`AnuDB.Client.Apart`), then
no interleaving makes a difference (`AnuDB.Client.independent`): not to what any of the calls
returns, and not to what is in the engine, the entries of the indexes included. They might have
been made one after the other in any order one likes.

What a call writes depends on what it reads, as the entries of a document that is deleted are worked
out from what is stored. That a document is stored under its own id is the invariant that sees to it.
-/

namespace AnuDB

open Effect

/-! ### The cells of an engine -/

/-- **What document calls look at**: which families there are, and the entries. -/
inductive Cell where
  /-- The names of the families. -/
  | families : Cell
  /-- What is under a key of a family. -/
  | entry (family key : Bytes) : Cell

/-- Two engines have the same there. -/
def Cell.same : Cell → Setoid StorageEngine
  | .families => Setoid.ker fun e (n : Bytes) => n ∈ e.columnFamilies_
  | .entry family key => Setoid.ker fun e => e.lookup family key

/-- The cells a call reads. -/
def Call.cellsRead : Call → Set Cell
  | .get n key => {.families, .entry n key}
  | _ => {.families}

/-- The cells a call writes. -/
def Call.cellsWritten : Call → Set Cell
  | .put n key _ => {.entry n key}
  | .remove n key => {.entry n key}
  | _ => ∅

section Footprint

variable {e t : StorageEngine} {codec : Codec}

/-- **What is stored is a document, under its own id**, if it is stored in a family that is no
index. -/
def Agrees (codec : Codec) (n id serialized : Bytes) : Prop :=
  ¬index_delimiter_ <:+: n → ∃ doc, Document.from_msgpack codec serialized = .ok doc ∧ doc.id_ = id

/-- The calls on documents that store what agrees. -/
def Call.Agrees (codec : Codec) : Call → Prop
  | .put n key value => AnuDB.Agrees codec n key value
  | .remove _ _ => True
  | .get _ _ => True
  | .getIndexNames _ => True
  | _ => False

/-- What is read agrees. -/
def Call.Finds (codec : Codec) : (x : Call) → x.Reply → Prop
  | .get n key, r => ∀ serialized, r = .ok serialized → AnuDB.Agrees codec n key serialized
  | _, _ => True

theorem Cell.same_families_iff :
    (Cell.families.same).r e t ↔ ∀ n, n ∈ e.columnFamilies_ ↔ n ∈ t.columnFamilies_ :=
  ⟨fun h n => iff_of_eq (congrFun h n), fun h => funext fun n => propext (h n)⟩

/-- A write leaves the cells it is not of. -/
theorem Cell.frame_tryWrite {fault : Option Bytes} {x : Write} {l : Cell}
    (h : l ≠ .entry x.family x.key) : (l.same).r e (e.tryWrite fault x).2 := by
  cases l with
  | families => exact same_families_iff.mpr fun n => StorageEngine.mem_tryWrite.symm
  | entry n key =>
    show e.lookup n key = (e.tryWrite fault x).2.lookup n key
    rw [StorageEngine.lookup_tryWrite, if_neg]
    rintro ⟨-, rfl, rfl, -⟩
    exact h rfl

/-- A write leaves the same what was the same. -/
theorem Cell.replay_tryWrite {fault : Option Bytes} {x : Write} (h : (Cell.families.same).r e t)
    {l : Cell} (hl : (l.same).r e t) :
    (l.same).r (e.tryWrite fault x).2 (t.tryWrite fault x).2 := by
  cases l with
  | families =>
    refine same_families_iff.mpr fun n => ?_
    rw [StorageEngine.mem_tryWrite, StorageEngine.mem_tryWrite, same_families_iff.mp h n]
  | entry n key =>
    show (e.tryWrite fault x).2.lookup n key = (t.tryWrite fault x).2.lookup n key
    have hlookup : e.lookup n key = t.lookup n key := hl
    simp only [StorageEngine.lookup_tryWrite, same_families_iff.mp h, hlookup]

/-- **Calls on documents read and write the cells they are said to.** -/
theorem footprint_cells (codec : Codec) : Pool.Footprint Serves Cell.same Call.cellsRead
    Call.cellsWritten (Call.Agrees codec) where
  frame := by
    rintro x e r e' hx ⟨fault, hexec⟩ l hl
    obtain rfl : (e.exec fault x).2 = e' := congrArg Prod.snd hexec
    cases x with
    | put n key value => exact Cell.frame_tryWrite (x := ⟨n, key, some value⟩) hl
    | remove n key => exact Cell.frame_tryWrite (x := ⟨n, key, none⟩) hl
    | get n key => exact l.same.refl' e
    | getIndexNames n => exact l.same.refl' e
    | _ => exact absurd hx id
  replay := by
    rintro x e r e' t hx ⟨fault, hexec⟩ hreads
    obtain rfl : (e.exec fault x).1 = r := congrArg Prod.fst hexec
    obtain rfl : (e.exec fault x).2 = e' := congrArg Prod.snd hexec
    have hfamilies : (Cell.families.same).r e t := by
      refine hreads _ ?_
      cases x <;> simp [Call.cellsRead]
    have hmem := Cell.same_families_iff.mp hfamilies
    suffices hsame : (t.exec fault x).1 = (e.exec fault x).1 ∧
        ∀ l, (Cell.same l).r e t → (Cell.same l).r (e.exec fault x).2 (t.exec fault x).2 from
      ⟨(t.exec fault x).2, ⟨fault, Prod.ext hsame.1 rfl⟩, hsame.2⟩
    cases x with
    | put n key value =>
      exact ⟨StorageEngine.tryWrite_congr (w := ⟨n, key, some value⟩) (hmem n).symm,
        fun l => Cell.replay_tryWrite (x := ⟨n, key, some value⟩) hfamilies⟩
    | remove n key =>
      exact ⟨StorageEngine.tryWrite_congr (w := ⟨n, key, none⟩) (hmem n).symm,
        fun l => Cell.replay_tryWrite (x := ⟨n, key, none⟩) hfamilies⟩
    | get n key =>
      have hlookup : e.lookup n key = t.lookup n key := hreads (.entry n key) (Or.inr rfl)
      exact ⟨(StorageEngine.get_congr (hmem n) hlookup).symm, fun l hl => hl⟩
    | getIndexNames n => exact ⟨(StorageEngine.getIndexNames_congr hmem n).symm, fun l hl => hl⟩
    | _ => exact absurd hx id

/-- A value that is got is there. -/
theorem StorageEngine.lookup_of_get {fault : Option Bytes} {n key value : Bytes}
    (h : e.get fault n key = .ok value) : e.lookup n key = some value := by
  rw [get] at h
  rw [lookup, contents]
  rcases hcf : e.columnFamilies_[n]? with _ | cf
  · simp [hcf] at h
  · cases fault with
    | some text => simp [hcf] at h
    | none => rcases hv : cf[key]? with _ | v <;> simp_all

/-- **Ids and keys stay in agreement**, call by call, and so what is read agrees. -/
theorem IdsAgree.serves {x : Call} {r : x.Reply} (hx : x.Agrees codec) (h : IdsAgree codec e)
    (hserves : Serves x e r t) : x.Finds codec r ∧ IdsAgree codec t := by
  obtain ⟨fault, hexec⟩ := hserves
  obtain rfl : (e.exec fault x).1 = r := congrArg Prod.fst hexec
  obtain rfl : (e.exec fault x).2 = t := congrArg Prod.snd hexec
  have hwrite (w : Write) (hw : ∀ value, w.value = some value → Agrees codec w.family w.key value) :
      IdsAgree codec (e.tryWrite fault w).2 := by
    intro n id serialized hn hlookup
    rw [StorageEngine.lookup_tryWrite] at hlookup
    split_ifs at hlookup with hwritten
    · obtain ⟨-, rfl, rfl, -⟩ := hwritten
      exact hw serialized hlookup hn
    · exact h n id serialized hn hlookup
  cases x with
  | put n key value =>
    exact ⟨trivial, hwrite ⟨n, key, some value⟩ fun v hv => Option.some.inj hv ▸ hx⟩
  | remove n key => exact ⟨trivial, hwrite ⟨n, key, none⟩ fun v hv => absurd hv (by simp)⟩
  | get n key =>
    exact ⟨fun serialized hr hn => h n key serialized hn (StorageEngine.lookup_of_get hr), h⟩
  | getIndexNames n => exact ⟨trivial, h⟩
  | _ => exact absurd hx id

end Footprint

theorem idsAgree_of_okReachable {codec : Codec} {condition : StorageEngine → Operation → Prop}
    {e : StorageEngine} (h : OkReachable codec condition e) : IdsAgree codec e :=
  h.invariant idsAgree_fresh fun hids _ hstep => hids.okStep hstep

/-! ### Clients -/

/-- The ids of the documents a call is about: an update that finds none under the empty id goes
on with one that is generated. -/
def DocumentCall.ids : DocumentCall → List Bytes
  | .create entropy doc => [DocumentMap.target entropy doc.id_]
  | .update entropy id _ _ => [id, DocumentMap.target entropy id]
  | .delete id => [id]

/-- **A client**: the collection it works on, and the call it makes. -/
structure Client where
  /-- The collection. -/
  collection : Collection
  /-- The call. -/
  call : DocumentCall

namespace Client

/-- The call, made. -/
def perform (codec : Codec) (x : Client) : Engine Status := x.call.perform codec x.collection

/-- **The cells of a client**: its documents, and the keys of the indexes that end with one of its
ids. -/
def owns (x : Client) : Set Cell :=
  {l | ∃ id ∈ x.call.ids, l = .entry x.collection.name_ id ∨
    ∃ f key, separator ++ id <:+ key ∧ l = .entry (x.collection.getIndexCfName f) key}

/-- **Two clients have no documents in common**, and no entries: if they work on one collection, no
id of one is, or ends with `#` and, an id of the other. -/
def Apart (x y : Client) : Prop :=
  x.collection.name_ = y.collection.name_ → ∀ id ∈ x.call.ids, ∀ id' ∈ y.call.ids,
    id ≠ id' ∧ ¬separator ++ id <:+ id' ∧ ¬separator ++ id' <:+ id

instance decidableApart (x y : Client) : Decidable (x.Apart y) := by
  unfold Apart
  infer_instance

/-- Two ids that a key ends with are one, or one of them ends with the other. -/
theorem eq_or_suffix_of_suffix {id id' key : Bytes} (h : separator ++ id <:+ key)
    (h' : separator ++ id' <:+ key) :
    id = id' ∨ separator ++ id <:+ id' ∨ separator ++ id' <:+ id := by
  have hlonger {id id' : Bytes} (h : separator ++ id <:+ separator ++ id') :
      id = id' ∨ separator ++ id <:+ id' := by
    refine (List.suffix_cons_iff.mp h).imp_left fun heq => ?_
    have heq : separator ++ id = separator ++ id' := heq
    exact List.append_cancel_left heq
  rcases List.suffix_or_suffix_of_suffix h h' with h | h
  · exact (hlonger h).imp_right Or.inl
  · exact (hlonger h).imp Eq.symm Or.inr

/-- **Clients that are apart have no cells in common.** -/
theorem disjoint_owns {x y : Client} (h : x.Apart y) (hx : Separable x.collection.name_)
    (hy : Separable y.collection.name_) : ∀ l ∈ x.owns, l ∉ y.owns := by
  have hne {c c' : Collection} (hc : Separable c.name_) (f : Bytes) :
      c.name_ ≠ c'.getIndexCfName f := ne_indexFamily_of_not_delimited hc.not_delimited _ _
  rintro l ⟨id, hid, hl⟩ ⟨id', hid', hl'⟩
  rcases hl with rfl | ⟨f, key, hkey, rfl⟩ <;> rcases hl' with hl' | ⟨f', key', hkey', hl'⟩
  · obtain ⟨hname, rfl⟩ := Cell.entry.inj hl'
    exact (h hname _ hid _ hid').1 rfl
  · exact hne hx f' (Cell.entry.inj hl').1
  · exact hne hy f (Cell.entry.inj hl').1.symm
  · obtain ⟨hfamily, rfl⟩ := Cell.entry.inj hl'
    have hname : x.collection.name_ = y.collection.name_ :=
      hx.symm.trans (StorageEngine.owner_eq_of_indexFamily_eq hy hfamily)
    obtain ⟨hids, hleft, hright⟩ := h hname _ hid _ hid'
    rcases eq_or_suffix_of_suffix hkey hkey' with heq | hsuffix | hsuffix
    · exact hids heq
    · exact hleft hsuffix
    · exact hright hsuffix

end Client

/-! ### What the calls keep to -/

section Keeps

variable {codec : Codec} {c : Collection} {id : Bytes}

/-- A call of a program that is about one document. -/
def Call.About (codec : Codec) (c : Collection) (id : Bytes) (x : Call) : Prop :=
  x.Agrees codec ∧ (∀ l ∈ x.cellsRead, l = .families ∨ l = .entry c.name_ id) ∧
    ∀ l ∈ x.cellsWritten, l = .entry c.name_ id ∨
      ∃ f key, separator ++ id <:+ key ∧ l = .entry (c.getIndexCfName f) key

theorem about_getIndexNames : (Call.getIndexNames c.name_).About codec c id :=
  ⟨trivial, fun _ hl => Or.inl hl, fun _ hl => absurd hl (Set.notMem_empty _)⟩

theorem about_get : (Call.get c.name_ id).About codec c id :=
  ⟨trivial, fun _ hl => hl, fun _ hl => absurd hl (Set.notMem_empty _)⟩

/-- The key of an entry ends with the id. -/
theorem suffix_of_entryKey {doc : Document} {f key : Bytes}
    (h : Collection.entryKey codec doc f = .ok key) : separator ++ doc.id_ <:+ key := by
  obtain ⟨k, -, hk⟩ := bind_eq_ok_iff.mp h
  rw [← Except.ok.inj hk, List.append_assoc]
  exact List.suffix_append k _

theorem about_put_entry {f key value : Bytes} (h : separator ++ id <:+ key) :
    (Call.put (c.getIndexCfName f) key value).About codec c id := by
  refine ⟨fun hn => absurd (delimiter_infix_indexFamily c.name_ f) hn,
    fun _ hl => Or.inl hl, fun _ hl => Or.inr ⟨f, key, h, hl⟩⟩

theorem about_remove_entry {f key : Bytes} (h : separator ++ id <:+ key) :
    (Call.remove (c.getIndexCfName f) key).About codec c id :=
  ⟨trivial, fun _ hl => Or.inl hl, fun _ hl => Or.inr ⟨f, key, h, hl⟩⟩

theorem about_put {doc : Document} :
    (Call.put c.name_ doc.id_ (doc.to_msgpack codec)).About codec c doc.id_ :=
  ⟨fun _ => ⟨doc, Document.from_msgpack_to_msgpack codec doc, rfl⟩, fun _ hl => Or.inl hl,
    fun _ hl => Or.inl hl⟩

theorem about_remove : (Call.remove c.name_ id).About codec c id :=
  ⟨trivial, fun _ hl => Or.inl hl, fun _ hl => Or.inl hl⟩

namespace Collection

/-- The loop over the indexes is about one document if its method is. -/
theorem given_forIndexes {method : Document → Bytes → Engine Status} {doc : Document}
    (h : ∀ index, (method doc index).Given (Call.Finds codec) (Call.About codec c id) fun _ => True)
    (indexes : List Bytes) : (forIndexes method doc indexes).Given (Call.Finds codec)
      (Call.About codec c id) fun _ => True := by
  induction indexes with
  | nil => trivial
  | cons index indexes ih =>
    rw [forIndexes]
    split_ifs
    · refine (h index).bind fun status _ => ?_
      split_ifs
      · exact ih
      · trivial
    · exact ih

theorem given_createDocument (entropy : Entropy) (doc : Document) :
    (c.createDocument codec entropy doc).Given (Call.Finds codec)
      (Call.About codec c (DocumentMap.target entropy doc.id_)) fun _ => True := by
  refine (Prog.given_ofExcept fun doc' hdoc' => (withId_assignId hdoc').1).bind fun doc' hid => ?_
  rw [← hid]
  refine (Prog.given_perform about_getIndexNames fun _ _ => trivial).bind fun indexes _ => ?_
  refine (given_forIndexes (fun index => ?_) indexes).bind fun status _ => ?_
  · refine (Prog.given_ofExcept fun key hkey => hkey).bind fun key hkey => ?_
    exact Prog.given_perform (about_put_entry (suffix_of_entryKey hkey)) fun _ _ => trivial
  · split_ifs
    · exact (Prog.given_perform about_put fun _ _ => trivial).bind fun _ _ => trivial
    · trivial

/-- What is read under an id is a document with it. -/
theorem given_readDocument (hc : Separable c.name_) (id : Bytes) :
    (c.readDocument codec id).Given (Call.Finds codec) (Call.About codec c id) fun r =>
      ∀ doc, r = .ok doc → doc.id_ = id := by
  refine (Prog.given_perform about_get fun r hr => hr).bind fun r hr => ?_
  rcases r with status | serialized
  · exact fun doc hdoc => absurd hdoc (by simp)
  · obtain ⟨doc, hdecode, hid⟩ := hr serialized rfl hc.not_delimited
    simp only [hdecode]
    exact fun doc' hdoc' => Except.ok.inj hdoc' ▸ hid

theorem given_deleteDocument (hc : Separable c.name_) (id : Bytes) :
    (c.deleteDocument codec id).Given (Call.Finds codec) (Call.About codec c id)
      fun _ => True := by
  refine (given_readDocument hc id).bind fun r hr => ?_
  cases r with
  | error status => trivial
  | ok doc =>
    obtain rfl := hr doc rfl
    refine (Prog.given_perform about_getIndexNames fun _ _ => trivial).bind fun indexes _ => ?_
    refine (given_forIndexes (fun index => ?_) indexes).bind fun status _ => ?_
    · refine (Prog.given_ofExcept fun key hkey => hkey).bind fun key hkey => ?_
      exact Prog.given_perform (about_remove_entry (suffix_of_entryKey hkey)) fun _ _ => trivial
    · split_ifs
      · exact Prog.given_perform about_remove fun _ _ => trivial
      · trivial

/-- An update is about the document it goes for, and about the one it stores. -/
theorem given_updateDocument (hc : Separable c.name_) (entropy : Entropy) (id : Bytes) (ops : Json)
    (upsert : Bool) : (c.updateDocument codec entropy id ops upsert).Given (Call.Finds codec)
      (fun x => ∃ id' ∈ (DocumentCall.update entropy id ops upsert).ids, x.About codec c id')
      fun _ => True := by
  have hread : (c.readDocument codec id).Given (Call.Finds codec)
      (fun x => ∃ id' ∈ (DocumentCall.update entropy id ops upsert).ids, x.About codec c id')
      fun r => ∀ doc, r = .ok doc → doc.id_ = id :=
    (given_readDocument hc id).mono (fun x hx => ⟨id, by simp [DocumentCall.ids], hx⟩) fun _ h => h
  -- an update goes on as a creation, of a document with the id it was read under
  have hcreate {doc : Document} (hid : doc.id_ = id) : (do
      let doc ← Prog.ofExcept (doc.applyUpdate ops)
      Prod.fst <$> c.createDocument codec entropy doc : Engine Status).Given (Call.Finds codec)
        (fun x => ∃ id' ∈ (DocumentCall.update entropy id ops upsert).ids, x.About codec c id')
        fun _ => True := by
    refine (Prog.given_ofExcept fun doc' hdoc' => Document.id_of_applyUpdate hdoc').bind
      fun doc' hid' => ?_
    have hcreated : (c.createDocument codec entropy doc').Given (Call.Finds codec) _ _ :=
      given_createDocument entropy doc'
    rw [hid', hid] at hcreated
    rw [map_eq_pure_bind]
    exact (hcreated.mono (fun x hx => ⟨_, by simp [DocumentCall.ids], hx⟩) fun _ h => h).bind
      fun _ _ => trivial
  refine hread.bind fun r hr => ?_
  cases r with
  | error status =>
    simp only
    split_ifs
    · exact hcreate rfl
    · trivial
  | ok doc => exact hcreate (hr doc rfl)

end Collection

/-- **A document call is about its documents.** -/
theorem DocumentCall.given_perform (hc : Separable c.name_) (call : DocumentCall) :
    (call.perform codec c).Given (Call.Finds codec) (fun x => ∃ id ∈ call.ids, x.About codec c id)
      fun _ => True := by
  have hone {α : Type} {p : Engine α} {id : Bytes} (hid : id ∈ call.ids)
      (h : p.Given (Call.Finds codec) (Call.About codec c id) fun _ => True) :
      p.Given (Call.Finds codec) (fun x => ∃ id ∈ call.ids, x.About codec c id) fun _ => True :=
    h.mono (fun _ hx => ⟨id, hid, hx⟩) fun _ h => h
  cases call with
  | create entropy doc =>
    rw [perform, map_eq_pure_bind]
    exact (hone (List.mem_singleton.mpr rfl) (Collection.given_createDocument entropy doc)).bind
      fun _ _ => trivial
  | update entropy id ops upsert => exact Collection.given_updateDocument hc entropy id ops upsert
  | delete id => exact hone (List.mem_singleton.mpr rfl) (Collection.given_deleteDocument hc id)

end Keeps

namespace Client

variable {ι : Type} {codec : Codec} {clients : ι → Client} {e : StorageEngine}

/-- Clients that are apart make programs that are independent. -/
theorem independent_perform (hsep : ∀ i, Separable (clients i).collection.name_)
    (hapart : ∀ i j, i ≠ j → (clients i).Apart (clients j)) :
    Pool.Independent Serves Cell.same Call.cellsRead Call.cellsWritten (Call.Agrees codec)
      (Call.Finds codec) (IdsAgree codec) (fun i => (clients i).owns)
      fun i => (clients i).perform codec where
  footprint := footprint_cells codec
  good := fun hx h hserves => h.serves hx hserves
  disjoint := fun i j hij => disjoint_owns (hapart i j hij) (hsep i) (hsep j)
  keeps := by
    intro i
    refine (DocumentCall.given_perform (hsep i) (clients i).call).mono ?_ fun _ h => h
    rintro x ⟨id, hid, hagrees, hread, hwritten⟩
    have hown {l : Cell} (hl : l = .entry (clients i).collection.name_ id ∨ ∃ f key,
        separator ++ id <:+ key ∧ l = .entry ((clients i).collection.getIndexCfName f) key) :
        l ∈ (clients i).owns := ⟨id, hid, hl⟩
    refine ⟨hagrees, ⟨fun l hl j hij hj => ?_, fun l hl => hown (hwritten l hl)⟩⟩
    rcases hread l hl with rfl | rfl
    · obtain ⟨_, _, hfamilies | ⟨_, _, _, hfamilies⟩⟩ := hj <;> cases hfamilies
    · exact disjoint_owns (hapart j i hij) (hsep j) (hsep i) _ hj (hown (Or.inl rfl))

/-- Where a call may get to alone, it gets to in some world; a call that has not ended is one that
the process stops in. -/
theorem exists_run_of_leads {α : Type} {p q : Engine α} {e e' : StorageEngine}
    (h : Leads Serves p e q e') :
    ∃ fates fates', p.run ⟨e, fates⟩ = (q.ending, ⟨e', fates'⟩) := by
  obtain ⟨fates, hrun⟩ := exists_fates_of_leads h (Stream'.const .stop)
  refine ⟨fates, Stream'.const .stop, hrun.trans ?_⟩
  cases q <;> rfl

/-- **Clients with documents of their own do not get into each other's way**: however their calls
are interleaved and whatever RocksDB refuses, in every state reached each call is where it may get
to alone; and made one after the other, in whatever order, the calls may come to the same, and leave
in the engine what there is. -/
theorem independent [DecidableEq ι] (hids : IdsAgree codec e)
    (hsep : ∀ i, Separable (clients i).collection.name_)
    (hapart : ∀ i j, i ≠ j → (clients i).Apart (clients j)) {p : Underway ι}
    {history : List (ι × ((x : Call) × x.Reply))}
    (h : History.Run (Pool.Step Serves) (Pool.start e fun i => (clients i).perform codec) history p)
    {order : List ι} (hnodup : order.Nodup) (hall : ∀ i, i ∈ order) :
    (∀ i, ∃ fates w', ((clients i).perform codec).run ⟨e, fates⟩ = ((p.rest i).ending, w')) ∧
      ∃ e', History.Run (fun e i e' => ∃ fates fates', ((clients i).perform codec).run ⟨e, fates⟩ =
          ((p.rest i).ending, ⟨e', fates'⟩)) e order e' ∧
        ∀ n, p.state.contents n = e'.contents n := by
  have hindependent : Pool.Independent Serves Cell.same Call.cellsRead Call.cellsWritten
      (Call.Agrees codec) (Call.Finds codec) (IdsAgree codec) (fun i => (clients i).owns)
      fun i => (clients i).perform codec := independent_perform hsep hapart
  refine ⟨fun i => ?_, ?_⟩
  · obtain ⟨t, hleads, -, -⟩ := (hindependent.alone hids h).1 i e fun l _ => l.same.refl' e
    obtain ⟨fates, fates', hrun⟩ := exists_run_of_leads hleads
    exact ⟨fates, ⟨t, fates'⟩, hrun⟩
  · obtain ⟨e', hserial, hsame⟩ := hindependent.serial hids h hnodup hall
    refine ⟨e', hserial.mono fun hleads => exists_run_of_leads hleads, fun n => ?_⟩
    exact StorageEngine.contents_ext (Cell.same_families_iff.mp (hsame .families) n)
      fun key => hsame (.entry n key)

/-- A document is deleted while another one is created, and the index has entries of both. -/
def createdAndDeleted : Fin 2 → Client := ![
  ⟨letterC, .create ⟨0, fun _ => 0⟩ (titled (Bytes.ofText "d") (Bytes.ofText "a"))⟩,
  ⟨letterC, .delete (Bytes.ofText "b#c")⟩]

/-- The turn of a client that has an engine call to make. -/
def mayCall {ι : Type} (p : Underway ι) (i : ι) : Bool := !decide (p.rest i).Done

theorem independent_createdAndDeleted : ∃ p : Underway (Fin 2), (∀ i, (p.rest i).Done) ∧ ∃ e',
    History.Run (fun e i e' => ∃ fates fates', ((createdAndDeleted i).perform .standard).run
        ⟨e, fates⟩ = ((p.rest i).ending, ⟨e', fates'⟩))
      (Operation.afterAll .standard .fresh indexedBefore) [1, 0] e' ∧
    ∀ n, p.state.contents n = e'.contents n := by
  have hallowed : Pool.allows (fun x e => StorageEngine.exec e none x) mayCall
      [0, 1, 1, 0, 1, 0, 1] (Pool.start (Operation.afterAll .standard .fresh indexedBefore)
        fun i => (createdAndDeleted i).perform .standard) = true := by
    decide +kernel
  have hstep (p : Underway (Fin 2)) (i : Fin 2) (hi : mayCall p i = true) :
      ∃ label, Pool.Step Serves p label (p.turn (fun x e => StorageEngine.exec e none x) i) := by
    obtain ⟨x, k, hrest⟩ := Prog.exists_call_of_not_done (p := p.rest i) (by simpa [mayCall] using hi)
    exact ⟨_, Pool.step_turn DocumentCall.serves_exec hrest⟩
  obtain ⟨history, hrun⟩ := Pool.run_of_allows hstep hallowed
  have hnodup : ([1, 0] : List (Fin 2)).Nodup := by decide
  have hids := @idsAgree_of_okReachable .standard _ _
    (OkReachable.fresh.afterAll indexedBefore (by decide +kernel))
  exact ⟨_, by decide +kernel,
    (independent hids (by decide) (by decide) hrun hnodup (by decide)).2⟩

end Client

end AnuDB
