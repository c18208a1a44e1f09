import AnuDB.Lib.Redo
import AnuDB.Replica

/-!
# Requests that are delivered again

The server subscribes with the quality of service 1, so a request is delivered at least once: it
may be delivered again, and a client that is told of a failure, or of nothing, may send it again.
A delivery that fails leaves something behind, as the entries of a document are written before the
document itself.

A request that says what is to become of a document, that it is to be deleted or created under an
id that is given (`AnuDB.JsonText.Settles`), may be delivered as often as one likes. Once one of
the deliveries has succeeded, the collection and its indexes hold what they would hold after one
delivery with nothing refused (`AnuDB.Server.contents_of_deliveries`). What the failures before
have left does not show, what comes after changes nothing, and others may work on other
collections in the meantime.

For a deletion that takes an argument: which entries are removed is read off the document, and the
document has to be there for that until all of them are. It is removed last.
-/

namespace AnuDB

open Effect

/-! ### The families of a collection -/

/-- **The families of a collection**: its own, and those of its indexes. -/
def ownFamilies (name : Bytes) : Set Bytes := {n | n = name ∨ ∃ f, n = indexFamily name f}

theorem mem_ownFamilies_self (name : Bytes) : name ∈ ownFamilies name := Or.inl rfl

theorem mem_ownFamilies_index (name f : Bytes) : indexFamily name f ∈ ownFamilies name :=
  Or.inr ⟨f, rfl⟩

/-- **Two separable names have no families in common.** -/
theorem not_mem_ownFamilies {name name' n : Bytes} (hname : Separable name)
    (hname' : Separable name') (hne : name' ≠ name) (hn : n ∈ ownFamilies name') :
    n ∉ ownFamilies name := by
  rintro (rfl | ⟨f, rfl⟩)
  · rcases hn with rfl | ⟨f, hf⟩
    · exact hne rfl
    · exact ne_indexFamily_of_not_delimited hname.not_delimited _ _ hf
  · rcases hn with hf | ⟨g, hg⟩
    · exact ne_indexFamily_of_not_delimited hname'.not_delimited _ _ hf.symm
    · exact hne (hname'.symm.trans (StorageEngine.owner_eq_of_indexFamily_eq hname hg.symm))

namespace StorageEngine

variable {e e' : StorageEngine} {name : Bytes}

/-- What is listed for a collection is told by its own families. -/
theorem getIndexNames_of_eqOn (h : Set.EqOn e'.contents e.contents (ownFamilies name)) :
    e'.getIndexNames name = e.getIndexNames name := by
  refine getIndexNames_eq_of_mem_iff (pairwise_getIndexNames e name) fun g => ?_
  rw [mem_getIndexNames, mem_getIndexNames, mem_congr (h (mem_ownFamilies_index name g))]

/-- So is a document. -/
theorem document_of_eqOn {codec : Codec} {id : Bytes}
    (h : Set.EqOn e'.contents e.contents (ownFamilies name)) :
    e'.document codec name id = e.document codec name id := by
  rw [document, document, lookup, lookup, h (mem_ownFamilies_self name)]

end StorageEngine

/-- A write that is made twice is made once. -/
theorem Write.repeatable_update (x : Write) : x.update.Repeatable := by
  intro contents
  cases contents with
  | none => rfl
  | some cf =>
    show some (x.change (x.change cf)) = some (x.change cf)
    congr 1
    ext1 key
    rw [Write.getElem?_change, Write.getElem?_change]
    split_ifs <;> rfl

/-! ### Calls that settle what becomes of a document -/

/-- **The calls of a request**, one for each delivery, that all settle the same: a document is
created under an id of its own, or deleted. -/
inductive Settling : (Entropy → DocumentCall) → Prop
  | create {doc : Document} (hid : doc.id_ ≠ []) : Settling fun entropy => .create entropy doc
  | delete (id : Bytes) : Settling fun _ => .delete id

namespace Settling

variable {codec : Codec} {c : Collection} {call : Entropy → DocumentCall} {e e' : StorageEngine}

/-- What there is to write is told by the families of the collection. -/
theorem steps_of_eqOn (h : Settling call) (entropy entropy' : Entropy)
    (he : Set.EqOn e'.contents e.contents (ownFamilies c.name_)) :
    (call entropy').steps codec c e' = (call entropy).steps codec c e := by
  have hindexes := StorageEngine.getIndexNames_of_eqOn he
  cases h with
  | @create doc hid =>
    have hassign (entropy : Entropy) : Collection.assignId entropy doc = doc := by
      rw [Collection.assignId, if_neg (by simpa using hid)]
    simp only [DocumentCall.steps, DocumentCall.stored, hassign, hindexes]
  | delete id =>
    simp only [DocumentCall.steps, hindexes, StorageEngine.document_of_eqOn he]

/-- A deletion that goes through leaves nothing to delete. -/
theorem document_of_deleted {id : Bytes} {ws : List Write}
    (h : (DocumentCall.delete id).steps codec c e = some (ws.map .ok))
    (hws : ∀ x ∈ ws, x.family ∈ e.columnFamilies_) :
    (e.applyAll ws).document codec c.name_ id = none := by
  obtain ⟨doc, -, hsteps⟩ := Option.map_eq_some_iff.mp h
  have hbatch := DocumentCall.batch_of_steps hsteps
  have hlast : (⟨c.name_, id, none⟩ : Write) ∈ ws := (hbatch _).mpr (Or.inr rfl)
  obtain ⟨y, hy, hfamily, -, hlookup⟩ :=
    StorageEngine.exists_lookup_applyAll hlast (hws _ hlast)
  have hnone : y.value = none := by
    rcases (hbatch y).mp hy with ⟨f, -, key, -, rfl⟩ | rfl
    · rfl
    · rfl
  rw [StorageEngine.document, hlookup, hnone]
  rfl

/-- **After a call there is the same to write as before it, or nothing.** -/
theorem steps_run (h : Settling call) (codec : Codec) (c : Collection)
    (entropy entropy' : Entropy) (w : World) :
    (call entropy').steps codec c (((call entropy).perform codec c).run w).2.engine =
        (call entropy).steps codec c w.engine ∨
      (call entropy').steps codec c (((call entropy).perform codec c).run w).2.engine = none := by
  have hengine := @DocumentCall.run_engine codec c w (call entropy)
  rw [hengine]
  cases h with
  | @create doc hid =>
    have hassign (entropy : Entropy) : Collection.assignId entropy doc = doc := by
      rw [Collection.assignId, if_neg (by simpa using hid)]
    refine Or.inl ?_
    simp only [DocumentCall.steps, DocumentCall.stored, hassign, StorageEngine.getIndexNames_applyAll]
  | delete id =>
    by_cases hok : ∃ status, (((DocumentCall.delete id).perform codec c).run w).1 = .ret status ∧
        status.ok = true
    · refine Or.inr (Option.map_eq_none_iff.mpr ?_)
      exact document_of_deleted ((DocumentCall.run_ok_iff _).mp hok)
        fun x hx => DocumentCall.mem_of_mem_landed hx
    · -- the document is still there, for the next delivery to read its entries off
      refine Or.inl ?_
      have hlookup : (w.engine.applyAll ((DocumentCall.delete id).landed codec c w)).lookup c.name_ id =
          w.engine.lookup c.name_ id :=
        StorageEngine.lookup_applyAll_of_forall fun x hx hfamily _ =>
          DocumentCall.landed_of_not_ok hok hx hfamily
      simp only [DocumentCall.steps, StorageEngine.document, hlookup,
        StorageEngine.getIndexNames_applyAll]

end Settling

/-- A call that can be completed is on a collection that is there. -/
theorem DocumentCall.Completes.mem_families {codec : Codec} {c : Collection} {e : StorageEngine}
    {call : DocumentCall} {ws : List Write} (h : call.Completes codec c e ws) :
    c.name_ ∈ e.columnFamilies_ := by
  rcases completes_cases h with ⟨doc, -, hsteps⟩ | ⟨doc, id, rfl, -, hsteps⟩
  · exact h.2 ⟨c.name_, doc.id_, _⟩ ((batch_of_steps hsteps _).mpr (Or.inr rfl))
  · exact h.2 ⟨c.name_, id, _⟩ ((batch_of_steps hsteps _).mpr (Or.inr rfl))

/-! ### Attempts -/

section Attempts

variable {codec : Codec} {c : Collection} {call : Entropy → DocumentCall} {e e' : StorageEngine}

/-- **An attempt**: the call is made, and it is told whether OK is reported; or something else is
done, and not to the collection. -/
def Attempt (codec : Codec) (c : Collection) (call : Entropy → DocumentCall) (e : StorageEngine)
    (ok : Bool) (e' : StorageEngine) : Prop :=
  (∃ entropy fates, e' = (((call entropy).perform codec c).run ⟨e, fates⟩).2.engine ∧
    (ok = true ↔ ∃ status, (((call entropy).perform codec c).run ⟨e, fates⟩).1 = .ret status ∧
      status.ok = true)) ∨
  ok = false ∧ Set.EqOn e'.contents e.contents (ownFamilies c.name_)

/-- What is to be written is of the families of the collection, and of each at most once. -/
theorem DocumentCall.updates_of_steps {x : DocumentCall} {steps : List (Except Exn Write)}
    (h : x.steps codec c e = some steps) :
    Batch.Distinct ((writesOf steps).map Write.update) ∧
      ∀ u ∈ (writesOf steps).map Write.update, u.place ∈ ownFamilies c.name_ := by
  have hfamilies := steps_families h
  have hplaces : ((writesOf steps).map Write.update).map Batch.Update.place =
      (writesOf steps).map Write.family := List.map_map
  refine ⟨?_, fun u hu => ?_⟩
  · rw [Batch.Distinct, hplaces]
    exact (nodup_families c e).sublist hfamilies
  · have hplace : u.place ∈ families c e :=
      hfamilies.subset (hplaces ▸ List.mem_map_of_mem hu)
    rcases List.mem_append.mp hplace with hindex | hself
    · obtain ⟨f, -, hf⟩ := List.mem_map.mp hindex
      exact Or.inr ⟨f, hf.symm⟩
    · exact Or.inl (List.mem_singleton.mp hself)

/-- **What holds between attempts**: there is the same to write as at first, or nothing, and the
collection has the families it had. -/
structure Pending (codec : Codec) (c : Collection) (call : Entropy → DocumentCall)
    (e e' : StorageEngine) : Prop where
  /-- What there is to write. -/
  steps : ∀ entropy entropy', (call entropy').steps codec c e' = (call entropy).steps codec c e ∨
    (call entropy').steps codec c e' = none
  /-- The families. -/
  families : ∀ n ∈ ownFamilies c.name_, n ∈ e'.columnFamilies_ ↔ n ∈ e.columnFamilies_

theorem Pending.attempt (hcall : Settling call) {ok : Bool} {e'' : StorageEngine}
    (h : Pending codec c call e e') (hattempt : Attempt codec c call e' ok e'') :
    Pending codec c call e e'' := by
  rcases hattempt with ⟨entropy₀, fates, rfl, -⟩ | ⟨-, heq⟩
  · refine ⟨fun entropy entropy' => ?_, fun n hn => ?_⟩
    · rcases hcall.steps_run codec c entropy₀ entropy' ⟨e', fates⟩ with hsame | hnone
      · rw [hsame]
        exact h.steps entropy entropy₀
      · exact Or.inr hnone
    · rw [DocumentCall.run_engine, StorageEngine.mem_applyAll]
      exact h.families n hn
  · refine ⟨fun entropy entropy' => ?_, fun n hn => ?_⟩
    · rw [hcall.steps_of_eqOn entropy' entropy' heq]
      exact h.steps entropy entropy'
    · rw [StorageEngine.mem_congr (heq hn)]
      exact h.families n hn

/-- **An attempt makes some of the writes there are**, and all of them if it reports OK. -/
theorem Pending.tries {entropy : Entropy} {steps : List (Except Exn Write)} {ok : Bool}
    {e'' : StorageEngine} (h : Pending codec c call e e')
    (hsteps : (call entropy).steps codec c e = some steps)
    (hattempt : Attempt codec c call e' ok e'') :
    Batch.Tries (ownFamilies c.name_) ((DocumentCall.writesOf steps).map Write.update) e'.contents ok
      e''.contents := by
  rcases hattempt with ⟨entropy', fates, rfl, hreports⟩ | ⟨rfl, heq⟩
  · refine ⟨((call entropy').landed codec c ⟨e', fates⟩).map Write.update, ?_, fun hok => ?_, ?_⟩
    · rcases h.steps entropy entropy' with hsame | hnone
      · exact (DocumentCall.landed_sublist (w := ⟨e', fates⟩) (hsame.trans hsteps)).map _
      · rw [DocumentCall.landed_of_steps (w := ⟨e', fates⟩) hnone]
        exact List.nil_sublist _
    · have hall := (DocumentCall.run_ok_iff _).mp (hreports.mp hok)
      rcases h.steps entropy entropy' with hsame | hnone
      · have hlanded := Option.some.inj ((hsame.trans hsteps).symm.trans hall)
        rw [hlanded, DocumentCall.writesOf_map_ok]
      · cases hnone.symm.trans hall
    · intro n hn
      rw [DocumentCall.run_engine, StorageEngine.contents_applyAll]
  · exact Batch.tries_of_eqOn heq

/-- What reports OK has been all there was to write, and at first there was the same. -/
theorem Pending.completes {entropy : Entropy} {e'' : StorageEngine} (h : Pending codec c call e e')
    (hattempt : Attempt codec c call e' true e'') : ∃ ws, (call entropy).Completes codec c e ws := by
  rcases hattempt with ⟨entropy', fates, rfl, hreports⟩ | ⟨hfalse, -⟩
  · have hall := (DocumentCall.run_ok_iff _).mp (hreports.mp rfl)
    refine ⟨(call entropy').landed codec c ⟨e', fates⟩, ?_, fun x hx => ?_⟩
    · rcases h.steps entropy entropy' with hsame | hnone
      · exact hsame.symm.trans hall
      · cases hnone.symm.trans hall
    · have howned : x.update.place ∈ ownFamilies c.name_ := by
        refine (DocumentCall.updates_of_steps hall).2 _ (List.mem_map_of_mem ?_)
        rwa [DocumentCall.writesOf_map_ok]
      exact (h.families _ howned).mp (DocumentCall.mem_of_mem_landed hx)
  · cases hfalse

/-- **Between attempts**, and if one has reported OK the call could have been completed at
first. -/
theorem pending_of_attempts (hcall : Settling call) {history : List Bool}
    (h : History.Run (Attempt codec c call) e history e') : Pending codec c call e e' ∧
      (true ∈ history → ∀ entropy, ∃ ws, (call entropy).Completes codec c e ws) := by
  induction h with
  | nil =>
    refine ⟨⟨fun entropy entropy' => Or.inl ?_, fun n _ => Iff.rfl⟩,
      fun hok => absurd hok List.not_mem_nil⟩
    exact hcall.steps_of_eqOn entropy entropy' (Set.eqOn_refl _ _)
  | @snoc history e' e'' ok _ hlast ih =>
    obtain ⟨hpending, hcompletes⟩ := ih
    refine ⟨hpending.attempt hcall hlast, fun hok => ?_⟩
    rcases List.mem_append.mp hok with hbefore | hnow
    · exact hcompletes hbefore
    · obtain rfl := List.mem_singleton.mp hnow
      exact fun entropy => hpending.completes hlast

/-- **Once an attempt has reported OK, the collection is as if the first one had**, and had not been
refused anything. -/
theorem eqOn_of_attempts (hcall : Settling call) {history : List Bool}
    (h : History.Run (Attempt codec c call) e history e') (hok : true ∈ history)
    (entropy : Entropy) : ∃ ws, (call entropy).Completes codec c e ws ∧
      Set.EqOn e'.contents (e.applyAll ws).contents (ownFamilies c.name_) := by
  obtain ⟨ws, hcompletes⟩ := (pending_of_attempts hcall h).2 hok entropy
  have hsteps := hcompletes.1
  refine ⟨ws, hcompletes, ?_⟩
  have htries : History.Run (Batch.Tries (ownFamilies c.name_)
      ((DocumentCall.writesOf (ws.map .ok)).map Write.update)) e.contents history e'.contents := by
    clear hok
    induction h with
    | nil => exact .nil
    | snoc hbefore hlast ih =>
      exact ih.snoc ((pending_of_attempts hcall hbefore).1.tries hsteps hlast)
  obtain ⟨hdistinct, -⟩ := DocumentCall.updates_of_steps hsteps
  have hrepeatable : ∀ u ∈ (DocumentCall.writesOf (ws.map .ok)).map Write.update, u.Repeatable := by
    intro u hu
    obtain ⟨x, -, rfl⟩ := List.mem_map.mp hu
    exact x.repeatable_update
  have hall := (Batch.eqOn_of_tries hdistinct hrepeatable htries).2 hok
  rw [DocumentCall.writesOf_map_ok] at hall
  rw [StorageEngine.contents_applyAll]
  exact hall

end Attempts

/-! ### Deliveries -/

section Deliveries

variable {text : JsonText} {codec : Codec} {payload name : Bytes} {call : Entropy → DocumentCall}

/-- **A request that settles what becomes of a document**: it is to be created under an id that is
given, or to be deleted. -/
inductive JsonText.Settles (text : JsonText) (payload name : Bytes) :
    (Entropy → DocumentCall) → Prop
  | create {req : Json} {docId : Bytes} {data : Json}
      (hasked : text.asked payload = .ok (.create_document, req))
      (hname : req.stringAt (Bytes.ofText "collection_name") = .ok name)
      (hargs : Service.createArgs req = .ok (docId, data)) (hid : docId ≠ []) :
      JsonText.Settles text payload name fun entropy => .create entropy ⟨docId, data⟩
  | delete {req : Json} {docId : Bytes} (hasked : text.asked payload = .ok (.delete_document, req))
      (hname : req.stringAt (Bytes.ofText "collection_name") = .ok name)
      (hid : req.stringAt (Bytes.ofText "document_id") = .ok docId) :
      JsonText.Settles text payload name fun _ => .delete docId

theorem JsonText.Settles.settling (h : text.Settles payload name call) : Settling call := by
  cases h with
  | create _ _ _ hid => exact .create hid
  | delete => exact .delete _

/-- **A request that is not about a collection**: if it is about one, that has no family in common
with it. -/
def JsonText.Aside (text : JsonText) (payload name : Bytes) : Prop :=
  ∀ command req name', text.asked payload = .ok (command, req) →
    req.stringAt (Bytes.ofText "collection_name") = .ok name' →
    ∀ n ∈ ownFamilies name', n ∉ ownFamilies name

namespace Server

variable {s s' s₁ : Server} {d : Delivery} {command : Command} {req : Json}

/-- What is asked of other collections leaves this one as it is. -/
theorem Step.eqOn_of_aside (h : s.Step text codec d s') (haside : text.Aside d.payload name) :
    Set.EqOn s'.engine.contents s.engine.contents (ownFamilies name) := by
  intro n hn
  rw [h.2]
  refine contents_serve fun command req name' hasked hname' x hx htouches => ?_
  exact haside command req name' hasked hname' n (hx.within n htouches) hn

/-- Whether a call reports OK. -/
def Reports (x : Outcome Exn Status) : Prop := ∃ status, x = .ret status ∧ status.ok = true

/-- **What a delivery of a document call does**: the call, if there is the collection. -/
theorem Step.callOn_cases {α β : Type} {args : Except Exn α} {call : α → Collection → Engine β}
    {result : β → Status} {done : Bytes → α → β → List (Bytes × Bytes)} {failure : Bytes → Bytes}
    {document : DocumentCall} {a : α} (h : s.Step text codec d s')
    (hasked : text.asked d.payload = .ok (command, req))
    (hname : req.stringAt (Bytes.ofText "collection_name") = .ok name)
    (hhandle : command.handle text codec d req (text.topic d.payload) =
      Service.callOn req args call result done failure) (hargs : args = .ok a)
    (hcall : document.perform codec ⟨name⟩ = result <$> call a ⟨name⟩)
    (hdone : ∀ b, ∀ x ∈ done name a b, x.1 ≠ Service.status)
    (hfailure : failure name ≠ Service.success) :
    (name ∉ s.engine.columnFamilies_ ∧ s'.engine = s.engine ∧ ¬s.Succeeds text codec d) ∨
    ∃ r, (d.refusals = Stream'.const none → r = Stream'.const none) ∧
      s'.engine = ((document.perform codec ⟨name⟩).run (.refusing s.engine r)).2.engine ∧
      (s.Succeeds text codec d ↔
        Reports ((document.perform codec ⟨name⟩).run (.refusing s.engine r)).1) := by
  have hanswers {resp : Json} {e : StorageEngine} {failed : Bool} (h : Service.Ends
      (Service.callOn req args call result done failure) (s.begun text d) e resp failed) :
      s.Answers text codec d e resp failed := answers_of_ends hasked (hhandle ▸ h)
  have hcrashes (hcrash : Service.Crashes (Service.callOn req args call result done failure)
      (s.begun text d)) : False := by
    obtain ⟨u, hu⟩ := crashes_of_crashes hasked (hhandle ▸ hcrash)
    exact h.1 u hu
  have hblank := blank_begun text s d
  rcases opening_cases (s := s) hname hargs with ⟨hfinds, complaint, hrefused⟩ | hundefined | honto
  · have h' := hanswers (Service.ends_of_refused hblank hrefused)
    refine Or.inl ⟨fun hfamily => hfinds (Or.inr (Or.inr hfamily)), h'.engine_eq h, ?_⟩
    rw [h'.succeeds_iff, (Service.honest_complaint complaint).success_iff]
    decide
  · exact (hcrashes (Service.crashes_of_opening hundefined)).elim
  refine Or.inr ⟨((s.begun text d).looked name).refusals, fun hcalm => ?_, ?_⟩
  · show (if _ then d.refusals else d.refusals.tail) = _
    rw [hcalm]
    split_ifs <;> rfl
  have hmade : (document.perform codec ⟨name⟩).run
      (.refusing s.engine ((s.begun text d).looked name).refusals) =
      (((call a ⟨name⟩).run (.refusing s.engine ((s.begun text d).looked name).refusals)).1.map result,
        ((call a ⟨name⟩).run (.refusing s.engine ((s.begun text d).looked name).refusals)).2) := by
    rw [hcall, Engine.run, Prog.run_map]
  rw [hmade]
  have hstopped := Engine.run_refusing_ne_stopped (call a ⟨name⟩) (s.begun text d).engine
    ((s.begun text d).looked name).refusals
  rcases hrun : (call a ⟨name⟩).run (.refusing s.engine
    ((s.begun text d).looked name).refusals) with ⟨b | (what | u) | _, w⟩
  · have h' := hanswers (Service.ends_callOn hblank honto hrun)
    refine ⟨h'.engine_eq h, ?_⟩
    rw [h'.succeeds_iff, (Service.honest_concluded (hdone b) hfailure).success_iff]
    simp [Reports, Outcome.map]
  · have h' := hanswers (Service.ends_callOn_of_exception hblank honto hrun)
    refine ⟨h'.engine_eq h, ?_⟩
    rw [h'.succeeds_iff, (Service.honest_complaint _).success_iff]
    simp [Reports, Outcome.map]
  · exact (hcrashes (Service.crashes_callOn honto hrun)).elim
  · exact absurd (congrArg Prod.fst hrun) hstopped

/-- **A delivery of the request**: its call is made, if there is the collection. -/
theorem Step.settles_cases (h : s.Step text codec d s') (hp : text.Settles d.payload name call) :
    (name ∉ s.engine.columnFamilies_ ∧ s'.engine = s.engine ∧ ¬s.Succeeds text codec d) ∨
    ∃ r, (d.refusals = Stream'.const none → r = Stream'.const none) ∧
      s'.engine = (((call d.entropy).perform codec ⟨name⟩).run (.refusing s.engine r)).2.engine ∧
      (s.Succeeds text codec d ↔
        Reports (((call d.entropy).perform codec ⟨name⟩).run (.refusing s.engine r)).1) := by
  cases hp with
  | @create req docId data hasked hname hargs hid =>
    exact h.callOn_cases hasked hname (Service.handle_create_document_eq codec d req) hargs rfl
      (fun _ _ => Service.ne_status_of_mem_docId) (Service.append_ne_success name (by decide))
  | @delete req docId hasked hname hid =>
    exact h.callOn_cases hasked hname
      (Service.handle_delete_document_eq codec req (Json.contains_of_stringAt hid)) hid
      (id_map _).symm (fun _ _ => Service.ne_status_of_mem_docId)
      (Service.append_ne_success name (by decide))

/-- **At least once**: the request is delivered, and it is told whether the reply says success; or
something else is asked, and not of the collection. -/
def AtLeastOnce (text : JsonText) (codec : Codec) (payload name : Bytes) (s : Server)
    (success : Bool) (s' : Server) : Prop :=
  ∃ d, s.Step text codec d s' ∧
    (d.payload = payload ∧ (success = true ↔ s.Succeeds text codec d) ∨
      success = false ∧ text.Aside d.payload name)

theorem AtLeastOnce.attempt {success : Bool} (h : s.AtLeastOnce text codec payload name success s')
    (hp : text.Settles payload name call) :
    Attempt codec ⟨name⟩ call s.engine success s'.engine := by
  obtain ⟨d, hstep, ⟨rfl, hsuccess⟩ | ⟨rfl, haside⟩⟩ := h
  · rcases hstep.settles_cases hp with ⟨-, hengine, hfails⟩ | ⟨r, -, hengine, hreports⟩
    · refine Or.inr ⟨?_, hengine ▸ Set.eqOn_refl _ _⟩
      rw [← Bool.not_eq_true, hsuccess]
      exact hfails
    · exact Or.inl ⟨d.entropy, _, hengine, hsuccess.trans hreports⟩
  · exact Or.inr ⟨rfl, hstep.eqOn_of_aside haside⟩

/-- **What is delivered at least once is done as if it had been delivered once**: when one of the
deliveries has succeeded, there is in the families of the collection what there is after a single
delivery that nothing is refused, whatever has been refused in the deliveries, and whatever has
been asked of other collections between them. -/
theorem contents_of_deliveries (hp : text.Settles payload name call) {history : List Bool}
    (h : History.Run (AtLeastOnce text codec payload name) s history s') (hok : true ∈ history)
    (hd : d.payload = payload) (hcalm : d.refusals = Stream'.const none)
    (hstep : s.Step text codec d s₁) :
    s.Succeeds text codec d ∧ ∀ n ∈ ownFamilies name, s'.engine.contents n = s₁.engine.contents n := by
  have hattempts : History.Run (Attempt codec ⟨name⟩ call) s.engine history s'.engine := by
    clear hok
    induction h with
    | nil => exact .nil
    | snoc _ hlast ih => exact ih.snoc (hlast.attempt hp)
  obtain ⟨ws, hcompletes, hleft⟩ := eqOn_of_attempts hp.settling hattempts hok d.entropy
  have hlanded := DocumentCall.landed_calm hcompletes.1 hcompletes.2
  subst hd
  rcases hstep.settles_cases hp with ⟨hfamily, -, -⟩ | ⟨r, hr, hengine, hreports⟩
  · exact absurd hcompletes.mem_families hfamily
  · have hworld : World.refusing s.engine r = .calm s.engine := by
      rw [hr hcalm]
      rfl
    rw [hworld] at hengine hreports
    refine ⟨hreports.mpr ((DocumentCall.run_ok_iff _).mpr ?_), fun n hn => ?_⟩
    · rw [hlanded]
      exact hcompletes.1
    · rw [hengine, DocumentCall.run_engine, hlanded]
      exact hleft hn

/-- The document is refused when its entry has been written. -/
def storingRefused : Delivery :=
  { storing "f" "b" with
    refusals := .cons none (.cons none (.cons (some []) (Stream'.const none))) }

/-- Whether the request does not end in undefined behaviour, and succeeds or not. -/
def goes (s : Server) (d : Delivery) (success : Bool) : Bool :=
  s.survives d && decide (((s.serve .standard .standard d).2.resp.find? Service.status).bind
    (fun v => v.getString.toOption) = some Service.success) == success

theorem atLeastOnce_after {success : Bool} (hd : d.payload = payload)
    (h : s.goes d success = true) :
    s.AtLeastOnce .standard .standard payload name success (s.after d) := by
  obtain ⟨hsurvives, hsuccess⟩ := Bool.and_eq_true_iff.mp h
  refine ⟨d, step_after hsurvives, Or.inl ⟨hd, ?_⟩⟩
  rw [← beq_iff_eq.mp hsuccess, decide_eq_true_iff]
  refine ⟨succeeds_of_getString, fun h => ?_⟩
  rw [Succeeds] at h
  rw [h]
  rfl

/-- A request about a collection of another name. -/
theorem aside_named (command : Command) (n : Bytes)
    (hcommand : (JsonText.standard.asked payload).toOption.map Prod.fst = some command)
    (hn : (JsonText.standard.asked payload).toOption.bind (fun x =>
      (x.2.stringAt (Bytes.ofText "collection_name")).toOption) = some n) (hname : Separable name)
    (hsep : Separable n) (hne : n ≠ name) : JsonText.standard.Aside payload name := by
  obtain ⟨req, hasked, hreq⟩ := exists_asked hcommand hn
  intro command' req' n' hasked' hreq' family hfamily
  obtain ⟨-, rfl⟩ := Prod.mk.inj (Except.ok.inj (hasked.symm.trans hasked'))
  obtain rfl := Except.ok.inj (hreq.symm.trans hreq')
  exact not_mem_ownFamilies hname hsep hne hfamily

/-- The document is refused, another collection is created, and the document is delivered again. -/
theorem contents_of_deliveries_storing : indexed.Succeeds .standard .standard (storing "f" "b") ∧
    ∀ n ∈ ownFamilies (Bytes.ofText "c"),
      (((indexed.after storingRefused).after (.named "create_collection" "d")).after
        (storing "f" "b")).engine.contents n = (indexed.after (storing "f" "b")).engine.contents n := by
  obtain ⟨req, hasked, hname⟩ := @exists_asked .create_document (storing "f" "b").payload
    (Bytes.ofText "c") (by decide +kernel) (by decide +kernel)
  obtain ⟨⟨docId, data⟩, hargs, hid⟩ : ∃ a, Service.createArgs req = .ok a ∧ a.1 ≠ [] := by
    have h : (JsonText.standard.asked (storing "f" "b").payload).toOption.bind (fun x =>
        (Service.createArgs x.2).toOption.map Prod.fst) = some (Bytes.ofText "a") := by
      decide +kernel
    rw [hasked] at h
    obtain ⟨a, ha, hid⟩ := Option.map_eq_some_iff.mp h
    exact ⟨a, eq_ok_of_toOption ha, by rw [hid]; decide⟩
  have haside : JsonText.standard.Aside (Delivery.named "create_collection" "d").payload
      (Bytes.ofText "c") :=
    aside_named .create_collection (Bytes.ofText "d") (by decide +kernel) (by decide +kernel)
      (by decide) (by decide) (by decide)
  -- all that is to be computed is computed at once
  have hsteps : indexed.goes storingRefused false = true ∧
      (indexed.after storingRefused).survives (.named "create_collection" "d") = true ∧
      ((indexed.after storingRefused).after (.named "create_collection" "d")).goes
        (storing "f" "b") true = true ∧ indexed.survives (storing "f" "b") = true := by
    decide +kernel
  obtain ⟨hrefused, hcreated, hstored, hstep⟩ := hsteps
  have hrun : History.Run (AtLeastOnce .standard .standard (storing "f" "b").payload
      (Bytes.ofText "c")) indexed [false, false, true] _ :=
    ((History.Run.nil.snoc (atLeastOnce_after (d := storingRefused) rfl hrefused)).snoc
      ⟨.named "create_collection" "d", step_after hcreated, Or.inr ⟨rfl, haside⟩⟩).snoc
      (atLeastOnce_after (d := storing "f" "b") rfl hstored)
  exact contents_of_deliveries (.create hasked hname hargs hid) hrun (by decide) rfl rfl
    (step_after hstep)

end Server

end Deliveries

end AnuDB
