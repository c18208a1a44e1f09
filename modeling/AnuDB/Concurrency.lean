import AnuDB.Frame
import AnuDB.Index
import AnuDB.Lib.Interleave
import Mathlib.Data.Fin.VecNotation

/-!
# Are document calls serialisable?

Document calls that are under way together interleave their engine calls: `updateDocument`
keeps others of its kind out with a mutex, and `createDocument` and `deleteDocument` take no
part in it. So a call may find a document and write it when another call has written it in
between.

Whenever that does not happen – no document is written by one call while another call that
has read it has engine calls to come (`AnuDB.Isolated`) – the calls that have ended are
serialisable (`AnuDB.serialisable_of_isolated`): every call reads at most one document, and
writes one with its last engine call, so it might as well do all it does at that moment.
Among updates the mutex sees to it.

It does happen: an update that has read a document brings it back after it was deleted
(`AnuDB.not_serialisable_of_deleted`).
-/

namespace AnuDB

open Effect

/-- **What the engine may do with a call**: what the call does, refused by RocksDB or not. -/
def Serves (x : Call) (e : StorageEngine) (r : x.Reply) (e' : StorageEngine) : Prop :=
  ∃ fault, e.exec fault x = (r, e')

/-- Programs under way on one engine. -/
abbrev Underway (ι : Type) : Type := Pool ι Call Call.Reply Exn Status StorageEngine

/-- Where a program may get to alone, some run of it gets to. -/
theorem exists_fates_of_leads {α : Type} {p q : Engine α} {e e' : StorageEngine}
    (h : Leads Serves p e q e') (fates : Stream' Fate) :
    ∃ fates', p.run ⟨e, fates'⟩ = q.run ⟨e', fates⟩ := by
  induction h generalizing fates with
  | refl => exact ⟨fates, rfl⟩
  | @snoc x k r t t' _ hserves ih =>
    obtain ⟨fault, hexec⟩ := hserves
    obtain ⟨fates', hrun⟩ := ih (Stream'.cons (fault.elim .ok .fail) fates)
    refine ⟨fates', hrun.trans ?_⟩
    have hhead : (Stream'.cons (fault.elim Fate.ok Fate.fail) fates).head.fault? = some fault := by
      cases fault <;> rfl
    change (Prog.perform x >>= k : Engine α).run _ = _
    rw [Engine.run_call_bind]
    simp only [hhead, hexec]
    rfl

/-! ### What document calls read and write -/

/-- **What document calls look at**: which families there are, and the documents. -/
inductive Place where
  /-- The names of the families. -/
  | families : Place
  /-- What is stored under an id. -/
  | document (id : Bytes) : Place

/-- Two engines have the same there. -/
def Place.same (c : Collection) : Place → Setoid StorageEngine
  | .families => Setoid.ker fun e (n : Bytes) => n ∈ e.columnFamilies_
  | .document id => Setoid.ker fun e => e.lookup c.name_ id

/-- The document a call reads. -/
def Call.documentRead (c : Collection) : Call → Option Bytes
  | .get n id => if n = c.name_ then some id else none
  | _ => none

/-- The document a call writes, if it goes through. -/
def Call.documentWritten (c : Collection) : Call → Option Bytes
  | .put n id _ => if n = c.name_ then some id else none
  | .remove n id => if n = c.name_ then some id else none
  | _ => none

/-- What a call reads: the entries of indexes are no place. -/
def Call.reads (c : Collection) (x : Call) : Set Place :=
  {l | l = .families ∨ ∃ id ∈ x.documentRead c, l = .document id}

/-- What a call writes. -/
def Call.writes (c : Collection) (x : Call) : Set Place :=
  {l | ∃ id ∈ x.documentWritten c, l = .document id}

/-- The calls that document calls are made of. -/
def Call.OfDocuments (c : Collection) : Call → Prop
  | .getIndexNames n => n = c.name_
  | .get n _ => n = c.name_
  | .put n _ _ => n = c.name_ ∨ ∃ f, n = indexFamily c.name_ f
  | .remove n _ => n = c.name_ ∨ ∃ f, n = indexFamily c.name_ f
  | _ => False

/-- Those that write no document. -/
def Call.Quiet (c : Collection) (x : Call) : Prop :=
  x.OfDocuments c ∧ x.documentWritten c = none

section Footprint

variable {c : Collection} {e t : StorageEngine}

theorem StorageEngine.get_congr {fault : Option Bytes} {n key : Bytes}
    (hmem : n ∈ e.columnFamilies_ ↔ n ∈ t.columnFamilies_) (hlookup : e.lookup n key = t.lookup n key) :
    e.get fault n key = t.get fault n key := by
  rw [mem_iff_contents, mem_iff_contents] at hmem
  simp only [lookup, contents] at hmem hlookup
  rcases he : e.columnFamilies_[n]? with _ | cf <;> rcases ht : t.columnFamilies_[n]? with _ | cf'
  · simp only [get, he, ht]
  · simp [he, ht] at hmem
  · simp [he, ht] at hmem
  · simp only [he, ht, Option.bind_some] at hlookup
    simp only [get, he, ht, hlookup]

theorem same_families_iff : ((Place.families).same c).r e t ↔
    ∀ n, n ∈ e.columnFamilies_ ↔ n ∈ t.columnFamilies_ :=
  ⟨fun h n => iff_of_eq (congrFun h n), fun h => funext fun n => propext (h n)⟩

/-- A write leaves what it is not of. -/
theorem frame_tryWrite {fault : Option Bytes} {x : Write} {l : Place}
    (h : x.family = c.name_ → l ≠ .document x.key) :
    (l.same c).r e (e.tryWrite fault x).2 := by
  cases l with
  | families => exact same_families_iff.mpr fun n => StorageEngine.mem_tryWrite.symm
  | document id =>
    show e.lookup c.name_ id = (e.tryWrite fault x).2.lookup c.name_ id
    rw [StorageEngine.lookup_tryWrite, if_neg]
    rintro ⟨-, hfamily, rfl, -⟩
    exact h hfamily.symm rfl

/-- A write leaves the same what was the same. -/
theorem replay_tryWrite {fault : Option Bytes} {x : Write} (h : ((Place.families).same c).r e t)
    {l : Place} (hl : (l.same c).r e t) :
    (l.same c).r (e.tryWrite fault x).2 (t.tryWrite fault x).2 := by
  cases l with
  | families =>
    refine same_families_iff.mpr fun n => ?_
    rw [StorageEngine.mem_tryWrite, StorageEngine.mem_tryWrite, same_families_iff.mp h n]
  | document id =>
    show (e.tryWrite fault x).2.lookup c.name_ id = (t.tryWrite fault x).2.lookup c.name_ id
    have hlookup : e.lookup c.name_ id = t.lookup c.name_ id := hl
    simp only [StorageEngine.lookup_tryWrite, same_families_iff.mp h, hlookup]

/-- **Document calls read and write what they are said to.** -/
theorem footprint (c : Collection) :
    Pool.Footprint Serves (Place.same c) (Call.reads c) (Call.writes c) (Call.OfDocuments c) where
  frame := by
    rintro x e r e' hx ⟨fault, hexec⟩ l hl
    obtain rfl : (e.exec fault x).2 = e' := congrArg Prod.snd hexec
    cases x with
    | put n key value =>
      exact frame_tryWrite (x := ⟨n, key, some value⟩) fun hn heq => hl ⟨key, if_pos hn, heq⟩
    | remove n key =>
      exact frame_tryWrite (x := ⟨n, key, none⟩) fun hn heq => hl ⟨key, if_pos hn, heq⟩
    | get n key => exact (l.same c).refl' e
    | getIndexNames n => exact (l.same c).refl' e
    | _ => exact absurd hx id
  replay := by
    rintro x e r e' t hx ⟨fault, hexec⟩ hreads
    obtain rfl : (e.exec fault x).1 = r := congrArg Prod.fst hexec
    obtain rfl : (e.exec fault x).2 = e' := congrArg Prod.snd hexec
    have hfamilies : ((Place.families).same c).r e t := hreads _ (Or.inl rfl)
    have hmem := same_families_iff.mp hfamilies
    suffices hsame : (t.exec fault x).1 = (e.exec fault x).1 ∧
        ∀ l, (Place.same c l).r e t → (Place.same c l).r (e.exec fault x).2 (t.exec fault x).2 from
      ⟨(t.exec fault x).2, ⟨fault, Prod.ext hsame.1 rfl⟩, hsame.2⟩
    cases x with
    | put n key value => exact ⟨StorageEngine.tryWrite_congr (w := ⟨n, key, some value⟩) (hmem n).symm,
        fun l => replay_tryWrite (x := ⟨n, key, some value⟩) hfamilies⟩
    | remove n key => exact ⟨StorageEngine.tryWrite_congr (w := ⟨n, key, none⟩) (hmem n).symm,
        fun l => replay_tryWrite (x := ⟨n, key, none⟩) hfamilies⟩
    | get n key =>
      obtain rfl : n = c.name_ := hx
      have hlookup : e.lookup c.name_ key = t.lookup c.name_ key :=
        hreads (.document key) (Or.inr ⟨key, if_pos rfl, rfl⟩)
      exact ⟨(StorageEngine.get_congr (hmem _) hlookup).symm, fun l hl => hl⟩
    | getIndexNames n => exact ⟨(StorageEngine.getIndexNames_congr hmem n).symm, fun l hl => hl⟩
    | _ => exact absurd hx id

end Footprint

/-! ### What document calls are made of -/

section Commits

variable {codec : Codec} {c : Collection}

theorem quiet_getIndexNames : (Call.getIndexNames c.name_).Quiet c := ⟨rfl, rfl⟩

theorem quiet_get (id : Bytes) : (Call.get c.name_ id).Quiet c := ⟨rfl, rfl⟩

theorem quiet_put (f key value : Bytes) : (Call.put (indexFamily c.name_ f) key value).Quiet c :=
  ⟨Or.inr ⟨f, rfl⟩, if_neg (indexFamily_ne c.name_ f)⟩

theorem quiet_remove (f key : Bytes) : (Call.remove (indexFamily c.name_ f) key).Quiet c :=
  ⟨Or.inr ⟨f, rfl⟩, if_neg (indexFamily_ne c.name_ f)⟩

namespace Collection

theorem commits_createDocument (entropy : Entropy) (doc : Document) :
    (c.createDocument codec entropy doc).Commits (Call.Quiet c) (Call.OfDocuments c) := by
  refine Prog.Uses.bind_commits (Prog.uses_ofExcept _) fun doc =>
    Prog.Uses.bind_commits (Prog.uses_perform.mpr quiet_getIndexNames) fun indexes => ?_
  have hentry (index : Bytes) : (c.insertIfIndexFieldExists codec doc index).Uses (Call.Quiet c) :=
    Prog.Uses.bind (Prog.uses_ofExcept _) fun key =>
      Prog.uses_perform.mpr (quiet_put index key doc.id_)
  refine Prog.Uses.bind_commits (uses_forIndexes hentry indexes) fun status => ?_
  split_ifs
  · exact Prog.Commits.bind (Prog.commits_perform (Or.inl rfl)) fun status => trivial
  · trivial

theorem quiet_readDocument (id : Bytes) : (c.readDocument codec id).Uses (Call.Quiet c) := by
  refine Prog.Uses.bind (Prog.uses_perform.mpr (quiet_get id)) fun r => ?_
  cases r with
  | error status => trivial
  | ok serialized =>
    simp only
    cases Document.from_msgpack codec serialized with
    | error exn => exact Prog.Uses.bind (Prog.uses_ofExcept _) fun status => Prog.uses_pure _
    | ok doc => trivial

theorem commits_deleteDocument (id : Bytes) :
    (c.deleteDocument codec id).Commits (Call.Quiet c) (Call.OfDocuments c) := by
  refine Prog.Uses.bind_commits (quiet_readDocument id) fun r => ?_
  cases r with
  | error status => trivial
  | ok doc =>
    refine Prog.Uses.bind_commits (Prog.uses_perform.mpr quiet_getIndexNames) fun indexes => ?_
    have hentry (index : Bytes) : (c.deleteIfIndexFieldExists codec doc index).Uses (Call.Quiet c) :=
      Prog.Uses.bind (Prog.uses_ofExcept _) fun key =>
        Prog.uses_perform.mpr (quiet_remove index key)
    refine Prog.Uses.bind_commits (uses_forIndexes hentry indexes) fun status => ?_
    split_ifs
    · exact Prog.commits_perform (Or.inl rfl)
    · trivial

theorem commits_updateDocument (entropy : Entropy) (id : Bytes) (ops : Json) (upsert : Bool) :
    (c.updateDocument codec entropy id ops upsert).Commits (Call.Quiet c) (Call.OfDocuments c) := by
  have hcreate (doc : Except Exn Document) : (do
      let doc ← Prog.ofExcept doc
      Prod.fst <$> c.createDocument codec entropy doc : Engine Status).Commits
        (Call.Quiet c) (Call.OfDocuments c) :=
    Prog.Uses.bind_commits (Prog.uses_ofExcept _) fun doc =>
      (commits_createDocument entropy doc).bind fun _ => trivial
  refine Prog.Uses.bind_commits (quiet_readDocument id) fun r => ?_
  cases r with
  | error status =>
    simp only
    split_ifs
    · exact hcreate _
    · trivial
  | ok doc => exact hcreate _

end Collection

/-- **A document call writes a document with its last engine call only.** -/
theorem DocumentCall.commits_perform (call : DocumentCall) :
    (call.perform codec c).Commits (Call.Quiet c) (Call.OfDocuments c) := by
  cases call with
  | create entropy doc =>
    rw [perform, map_eq_pure_bind]
    exact (Collection.commits_createDocument entropy doc).bind fun _ => trivial
  | update entropy id ops upsert => exact Collection.commits_updateDocument entropy id ops upsert
  | delete id => exact Collection.commits_deleteDocument id

end Commits

/-! ### Document calls under way -/

namespace DocumentCall

/-- Whether the call is an update. -/
def isUpdate : DocumentCall → Bool
  | .update .. => true
  | _ => false

variable {ι : Type} (codec : Codec) (c : Collection) (calls : ι → DocumentCall)

/-- The calls, made together. -/
def together (e : StorageEngine) : Underway ι := Pool.start e fun i => (calls i).perform codec c

/-- **The mutex**: an update takes `collection_mutex_` before its first engine call and holds it
until it has ended. -/
def HasMutex (p : Underway ι) (i : ι) : Prop :=
  (calls i).isUpdate = true → ∀ j, j ≠ i → (calls j).isUpdate = true →
    p.made j = [] ∨ (p.rest j).Done

/-- **A step**: a call makes its next engine call; an update needs the mutex. -/
def Step [DecidableEq ι] (p : Underway ι) (label : ι × ((x : Call) × x.Reply)) (p' : Underway ι) :
    Prop :=
  p.Step Serves label p' ∧ HasMutex calls p label.1

/-- **No document is written by one call while another call that has read it has engine calls to
come.** Of two updates this is not asked. -/
def Isolated (p : Underway ι) (label : ι × ((x : Call) × x.Reply)) : Prop :=
  ∀ j, j ≠ label.1 → ¬((calls label.1).isUpdate = true ∧ (calls j).isUpdate = true) →
    ¬(p.rest j).Done → ∀ x ∈ p.made j, ∀ id ∈ x.1.documentRead c,
      id ∉ label.2.1.documentWritten c

/-- **The calls that have ended are serialisable**: made one after the other in some order, they
may return or throw what they did, and leave the documents there are. -/
def Serialisable (e : StorageEngine) (p : Underway ι) : Prop :=
  ∃ order e', order.Nodup ∧ (∀ i, i ∈ order ↔ (p.rest i).Done) ∧
    History.Run (fun e i e' => ∃ fates w', ((calls i).perform codec c).run ⟨e, fates⟩ =
      ((p.rest i).ending, w') ∧ w'.engine = e') e order e' ∧
    ∀ id, p.state.lookup c.name_ id = e'.lookup c.name_ id

instance [DecidableEq ι] [Fintype ι] (p : Underway ι) (i : ι) : Decidable (HasMutex calls p i) := by
  unfold HasMutex
  infer_instance

instance [DecidableEq ι] [Fintype ι] (p : Underway ι) (label : ι × ((x : Call) × x.Reply)) :
    Decidable (Isolated c calls p label) := by
  unfold Isolated
  infer_instance

variable {codec c calls} {e : StorageEngine} {p : Underway ι}
  {history : List (ι × ((x : Call) × x.Reply))}

/-- Isolated steps write nothing that another call has read: among updates the mutex sees to
it. -/
theorem undisturbed_of_isolated {label : ι × ((x : Call) × x.Reply)}
    (hmutex : HasMutex calls p label.1) (h : Isolated c calls p label) :
    Pool.Undisturbed (Call.reads c) (Call.writes c) p label := by
  rintro j hj hdone x hx l hread ⟨id, hwritten, rfl⟩
  obtain hfamilies | ⟨id', hread, hid⟩ := hread
  · exact absurd hfamilies (by simp)
  · obtain rfl := Place.document.inj hid
    by_cases hboth : (calls label.1).isUpdate = true ∧ (calls j).isUpdate = true
    · obtain hnone | hended := hmutex hboth.1 j hj hboth.2
      · rw [hnone] at hx
        exact List.not_mem_nil hx
      · exact hdone hended
    · exact h j hj hboth hdone x hx id hread hwritten

/-- **When document calls are serialisable**: in every state that calls made together reach by
isolated steps. -/
theorem serialisable_of_isolated [DecidableEq ι] [Finite ι]
    (h : History.Run (History.Meeting (Isolated c calls) (Step calls)) (together codec c calls e)
      history p) : Serialisable codec c calls e p := by
  have hundisturbed : History.Run (History.Meeting
      (Pool.Undisturbed (Call.reads c) (Call.writes c)) (Pool.Step Serves))
      (together codec c calls e) history p :=
    h.mono fun hstep => ⟨undisturbed_of_isolated hstep.2.2 hstep.1, hstep.2.1⟩
  have hcommits (i : ι) : ((calls i).perform codec c).Commits
      (fun x => x.OfDocuments c ∧ x.writes c = ∅) (Call.OfDocuments c) := by
    refine (commits_perform (calls i)).mono fun x hx => ⟨hx.1, ?_⟩
    ext l
    simp [Call.writes, hx.2]
  obtain ⟨order, e', hnodup, hmem, hserial, hsame⟩ :=
    Pool.serialisable (footprint c) hcommits hundisturbed
  refine ⟨order, e', hnodup, hmem, hserial.mono fun hends => ?_, fun id => hsame (.document id)⟩
  rename_i t i t'
  obtain ⟨q, hleads, hdone, hending⟩ := hends
  obtain ⟨fates, hrun⟩ := exists_fates_of_leads hleads (Stream'.const .ok)
  refine ⟨fates, ⟨t', Stream'.const .ok⟩, ?_, rfl⟩
  rw [hrun, ← show q.ending = (p.rest i).ending from hending]
  cases q with
  | ret a => rfl
  | raise e => rfl
  | call x k => exact absurd hdone id

/-! ### Two pairs of calls -/

/-- The turn of a call, with RocksDB refusing nothing. -/
def turn [DecidableEq ι] (p : Underway ι) (i : ι) : Underway ι :=
  p.turn (fun x e => e.exec none x) i

/-- Whether a call may take its turn: it has an engine call to make, and the mutex if it needs
it. -/
def mayTurn [DecidableEq ι] [Fintype ι] (calls : ι → DocumentCall) (p : Underway ι) (i : ι) : Bool :=
  !decide (p.rest i).Done && decide (HasMutex calls p i)

/-- Whether it may, and is isolated. -/
def isolatedTurn [DecidableEq ι] [Fintype ι] (c : Collection) (calls : ι → DocumentCall)
    (p : Underway ι) (i : ι) : Bool :=
  match p.rest i with
  | .call x _ => mayTurn calls p i && decide (Isolated c calls p (i, ⟨x, (p.state.exec none x).1⟩))
  | _ => false

theorem serves_exec (x : Call) (e : StorageEngine) : Serves x e (e.exec none x).1 (e.exec none x).2 :=
  ⟨none, rfl⟩

theorem step_turn [DecidableEq ι] [Fintype ι] {i : ι} (h : mayTurn calls p i = true) :
    ∃ label, Step calls p label (turn p i) := by
  obtain ⟨hdone, hmutex⟩ := Bool.and_eq_true_iff.mp h
  obtain ⟨x, k, hrest⟩ := Prog.exists_call_of_not_done (p := p.rest i) (by simpa using hdone)
  exact ⟨_, Pool.step_turn serves_exec hrest, of_decide_eq_true hmutex⟩

theorem step_isolatedTurn [DecidableEq ι] [Fintype ι] {i : ι}
    (h : isolatedTurn c calls p i = true) :
    ∃ label, History.Meeting (Isolated c calls) (Step calls) p label (turn p i) := by
  rw [isolatedTurn] at h
  split at h
  · rename_i x k hrest
    obtain ⟨hmay, hisolated⟩ := Bool.and_eq_true_iff.mp h
    obtain ⟨-, hmutex⟩ := Bool.and_eq_true_iff.mp hmay
    exact ⟨_, of_decide_eq_true hisolated, Pool.step_turn serves_exec hrest,
      of_decide_eq_true hmutex⟩
  · exact absurd h (by simp)

/-- A collection with the document `a`. -/
def oneDocument : StorageEngine :=
  Operation.afterAll .standard .fresh [.createCollection letterC.name_,
    .document letterC (.create ⟨0, fun _ => 0⟩ (numbered 1))]

/-- The document is deleted while another one is created. -/
def createAndDelete : Fin 2 → DocumentCall := ![
  .create ⟨0, fun _ => 0⟩ ⟨Bytes.ofText "b", .object []⟩,
  .delete (Bytes.ofText "a")]

theorem serialisable_createAndDelete : ∃ p, (∀ i, (p.rest i).Done) ∧
    Serialisable .standard letterC createAndDelete oneDocument p := by
  have hallowed : Pool.allows (fun x e => StorageEngine.exec e none x)
      (isolatedTurn letterC createAndDelete) [0, 1, 1, 0, 1]
      (together .standard letterC createAndDelete oneDocument) = true := by
    decide +kernel
  obtain ⟨history, hrun⟩ := Pool.run_of_allows (fun p i => step_isolatedTurn) hallowed
  exact ⟨_, by decide +kernel, serialisable_of_isolated hrun⟩

/-- A document that is there no more after it was deleted. -/
theorem lookup_of_delete {id : Bytes} {e' : StorageEngine}
    (h : (Operation.document c (.delete id)).OkStep codec e e') : e'.lookup c.name_ id = none := by
  obtain ⟨ws, hcomplete, rfl⟩ := Operation.document_okStep h
  rcases completes_cases hcomplete with ⟨doc, hstored, -⟩ | ⟨doc, id', hcall, -, hsteps⟩
  · exact absurd hstored (by simp [stored])
  · obtain rfl : id = id' := DocumentCall.delete.inj hcall
    have hbatch := batch_of_steps hsteps
    exact hbatch.lookup_document (hcomplete.2 _ ((hbatch _).mpr (Or.inr rfl)))

/-- A document is there if it was updated. -/
theorem lookup_of_update {entropy : Entropy} {id : Bytes} {ops : Json} {e' : StorageEngine}
    (h : (Operation.document c (.update entropy id ops false)).OkStep codec e e') :
    e.lookup c.name_ id ≠ none := by
  intro hnone
  obtain ⟨ws, hcomplete, rfl⟩ := Operation.document_okStep h
  rcases completes_cases hcomplete with ⟨doc, hstored, -⟩ | ⟨doc, id', hcall, -, hsteps⟩
  · exact absurd hstored (by simp [stored, hnone])
  · exact absurd hcall (by simp)

/-- The document is deleted while it is updated. -/
def updateAndDelete : Fin 2 → DocumentCall := ![
  .update ⟨0, fun _ => 0⟩ (Bytes.ofText "a")
    (.object [(Bytes.ofText "$set", .object [(Bytes.ofText "f", .integer 2)])]) false,
  .delete (Bytes.ofText "a")]

/-- What comes of it when the update has read the document first, and writes it last. -/
def deletedMeanwhile : Underway (Fin 2) :=
  [0, 1, 1, 1, 0, 0].foldl turn (together .standard letterC updateAndDelete oneDocument)

/-- **A deleted document is brought back by an update that had read it**: both report OK, and it
is there. -/
theorem not_serialisable_of_deleted : Reachable .standard oneDocument ∧
    (∃ history, History.Run (Step updateAndDelete)
      (together .standard letterC updateAndDelete oneDocument) history deletedMeanwhile) ∧
    (∀ i, (deletedMeanwhile.rest i).Done) ∧
    ¬Serialisable .standard letterC updateAndDelete oneDocument deletedMeanwhile := by
  have hallowed : Pool.allows (fun x e => StorageEngine.exec e none x) (mayTurn updateAndDelete)
      [0, 1, 1, 1, 0, 0] (together .standard letterC updateAndDelete oneDocument) = true := by
    decide +kernel
  refine ⟨Reachable.fresh.afterAll _, Pool.run_of_allows (fun p i => step_turn) hallowed,
    by decide +kernel, ?_⟩
  rintro ⟨order, e', -, hmem, hserial, hlookup⟩
  have hok (i : Fin 2) : (deletedMeanwhile.rest i).ending = .ret .OK := by
    revert i
    decide +kernel
  -- once it is deleted it cannot be updated, so it stays deleted
  have hdeleted : 1 ∈ order → e'.lookup letterC.name_ (Bytes.ofText "a") = none := by
    clear hmem hlookup
    induction hserial with
    | nil => exact fun h => absurd h List.not_mem_nil
    | @snoc order t t' i _ hstep ih =>
      obtain ⟨fates, w', hrun, hw'⟩ := hstep
      rw [hok i] at hrun
      intro hone
      match i with
      | 0 =>
        have hmem : 1 ∈ order := by simpa using hone
        have hupdate : (Operation.document letterC (updateAndDelete 0)).OkStep .standard t t' :=
          ⟨fates, .OK, w', hrun, rfl, hw'⟩
        exact absurd (ih hmem) (lookup_of_update hupdate)
      | 1 =>
        have hdelete : (Operation.document letterC (updateAndDelete 1)).OkStep .standard t t' :=
          ⟨fates, .OK, w', hrun, rfl, hw'⟩
        exact lookup_of_delete hdelete
  have hthere : (deletedMeanwhile.state.lookup letterC.name_ (Bytes.ofText "a")).isSome = true := by
    decide +kernel
  have hdone : (deletedMeanwhile.rest 1).Done := by decide +kernel
  rw [hlookup, hdeleted ((hmem 1).mpr hdone)] at hthere
  exact absurd hthere (by simp)

end DocumentCall

end AnuDB
