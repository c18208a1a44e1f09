import AnuDB.Answers
import AnuDB.Commands
import AnuDB.HandlerFrames

/-!
# What is published for a request

The handlers that send documents send them one by one, while they read them, and whatever is thrown
on the way leaves sent what was sent. What is published while a request is handled is therefore not
told by how that ends. It is told by the request and the engine all the same
(`AnuDB.Server.published_serve`): the texts of the documents that are read, in the order of the
cursor or of the answer to the query, up to the first one that cannot be dumped (or, where a cursor
walks them, decoded), less those that NNG does not take. All other commands publish nothing, and
neither does what is no request.

A query only ever finds ids that are in the indexes. So where the indexes have entries of stored
documents only, every query is answered with stored documents, each as it is
(`AnuDB.Server.answers_found`).
-/

namespace AnuDB

open Effect

/-! ### What is sent -/

/-- What NNG takes of what it is handed. -/
def kept {α : Type} : Stream' Bool → List α → List α
  | _, [] => []
  | taken, a :: rest => if taken.head then a :: kept taken.tail rest else kept taken.tail rest

theorem kept_const_true {α : Type} (l : List α) : kept (Stream'.const true) l = l := by
  induction l with
  | nil => rfl
  | cons a l ih => exact congrArg (a :: ·) ih

/-- The texts of the documents a cursor walks, up to the first one that cannot be sent. -/
def entryTexts (text : JsonText) (codec : Codec) : List (Bytes × Bytes) → List Bytes
  | [] => []
  | (_, value) :: entries =>
    match Document.from_msgpack codec value with
    | .error _ => []
    | .ok doc =>
      match text.dump doc.data_ with
      | .error _ => []
      | .ok payload => payload :: entryTexts text codec entries

/-- The texts of the documents a query has found, up to the first one that cannot be dumped: one
that cannot be read is passed over. -/
def documentTexts (text : JsonText) (codec : Codec) (e : StorageEngine) (name : Bytes) :
    Stream' (Option Bytes) → List Bytes → List Bytes
  | _, [] => []
  | refusals, docId :: docIds =>
    match e.readDocument codec refusals.head name docId with
    | .error _ => []
    | .ok (.error _) => documentTexts text codec e name refusals.tail docIds
    | .ok (.ok doc) =>
      match text.dump doc.data_ with
      | .error _ => []
      | .ok payload => payload :: documentTexts text codec e name refusals.tail docIds

/-- What is sent by a handler on a collection, where it goes on. -/
def Opening.sends {α : Type} (payloads : Bytes → α → List Bytes) : Opening α → List Bytes
  | .onto name a => payloads name a
  | _ => []

/-- What `handle_read_document` sends: nothing, if it was asked for one document. -/
def Serving.entriesSent (text : JsonText) (codec : Codec) (s : Serving) (req : Json) :
    List Bytes :=
  (s.opening req (Service.readArgs req)).sends fun name args => args.elim (fun _ => []) fun limit =>
    entryTexts text codec ((s.engine.cursor name).take limit.toNat)

/-- What `handle_find_documents` sends. -/
def Serving.documentsSent (text : JsonText) (codec : Codec) (s : Serving) (req : Json) :
    List Bytes :=
  (s.opening req (Service.findArgs req)).sends fun name query =>
    ((Collection.findDocument codec ⟨name⟩ s.engine query).toOption.map
      (documentTexts text codec s.engine name (s.looked name).refusals)).getD []

/-- **What the handler of a command sends.** -/
def Command.responses (text : JsonText) (codec : Codec) (s : Serving) (req : Json) :
    Command → List Bytes
  | read_document => s.entriesSent text codec req
  | find_documents => s.documentsSent text codec req
  | _ => []

/-- **What is sent while a request is handled**, before the reply. -/
def Server.responses (text : JsonText) (codec : Codec) (s : Server) (d : Delivery) : List Bytes :=
  match text.asked d.payload with
  | .ok (command, req) => command.responses text codec (s.begun text d) req
  | .error _ => []

/-- What has been published when so much more was handed to NNG. -/
def Serving.sends (topic : Bytes) (s : Serving) (payloads : List Bytes) : List (Bytes × Bytes) :=
  s.published ++ (kept s.taken payloads).map (Prod.mk (Collection.cString topic))

namespace Service

variable {α : Type} {text : JsonText} {codec : Codec} {d : Delivery} {req : Json} {topic : Bytes}

/-! ### What sends nothing -/

/-- The same has been sent. -/
def sent : Setoid Serving := Setoid.ker fun s => (s.published, s.taken)

theorem sent_iff {s s' : Serving} :
    sent.r s s' ↔ s.published = s'.published ∧ s.taken = s'.taken := Prod.mk.injEq .. ▸ Iff.rfl

theorem overlooks_sent : Overlooks sent :=
  ⟨fun _ _ _ => rfl, fun _ _ _ _ => rfl, fun _ _ => rfl⟩

/-- Calls to the engine send nothing. -/
theorem sent_engine (p : Engine α) : (engine p).Frames sent := fun _ => rfl

/-- A handler that does not come to use its collection sends nothing. -/
theorem sent_of_not_onto {args : Except Exn α} {use : Bytes → α → Collection → Service Unit}
    {s : Serving} (h : ∀ name a, s.opening req args ≠ .onto name a) :
    sent.r s ((onCollection req fun name => useOn name args (use name)).run s).2 := by
  refine sent.iseqv.trans ?_ (overlooks_sent.caught (Bytes.ofText "Exception: ") _ s)
  rcases hname : req.stringAt (Bytes.ofText "collection_name") with exn | name
  · exact sent.iseqv.refl s
  rw [Action.ofExcept_ok, Action.pure_bind', Action.run_bind_of_ret (run_lookup name s)]
  by_cases hfinds : s.Finds name
  · rw [decide_eq_true hfinds]
    show sent.r (s.looked name) ((useOn name args (use name)).run (s.looked name)).2
    rcases args with exn | a
    · exact sent.iseqv.refl (s.looked name)
    rw [useOn, Action.ofExcept_ok, Action.pure_bind']
    rcases run_collection hfinds with ⟨hdangles, -⟩ | ⟨-, u, hrun⟩
    · exact absurd (Server.opening_eq_onto_iff.mpr ⟨hname, hfinds, rfl, hdangles⟩) (h name a)
    · rw [Action.run_bind_of_raise hrun]
  · rw [decide_eq_false hfinds]
    exact overlooks_sent.complain _ (s.looked name)

/-! ### What the two others send -/

theorem published_send (topic payload : Bytes) (payloads : List Bytes) (s : Serving) :
    Serving.sends topic ((send_response topic payload).run s).2 payloads =
      s.sends topic (payload :: payloads) := by
  rw [send_response, Action.run_modify, Serving.sends, Serving.sends, kept]
  simp only
  split_ifs
  · rw [List.map_cons, List.append_assoc, List.singleton_append]
  · rfl

theorem sends_nil (topic : Bytes) (s : Serving) : s.sends topic [] = s.published :=
  List.append_nil _

/-- The documents a cursor walks. -/
theorem published_sendEntries (entries : List (Bytes × Bytes)) (s : Serving) :
    ((sendEntries text codec topic entries).run s).2.published =
      s.sends topic (entryTexts text codec entries) := by
  induction entries generalizing s with
  | nil => exact (sends_nil topic s).symm
  | cons x entries ih =>
    rw [sendEntries, entryTexts]
    rcases Document.from_msgpack codec x.2 with exn | doc
    · exact (sends_nil topic s).symm
    rcases hdump : text.dump doc.data_ with what | payload
    · simp only [Action.ofExcept_ok, Action.pure_bind', hdump]
      exact (sends_nil topic s).symm
    · simp only [Action.ofExcept_ok, Action.pure_bind', hdump, Except.mapError]
      exact (ih _).trans (published_send topic payload _ s)

/-- The documents a query has found. -/
theorem published_sendDocuments (name : Bytes) (docIds : List Bytes) (s : Serving) :
    ((sendDocuments text codec topic ⟨name⟩ docIds).run s).2.published =
      s.sends topic (documentTexts text codec s.engine name s.refusals docIds) := by
  induction docIds generalizing s with
  | nil => exact (sends_nil topic s).symm
  | cons docId docIds ih =>
    rw [sendDocuments, documentTexts]
    rcases hresult : s.engine.readDocument codec s.refusals.head name docId with exn | status | doc
    · have hfirst : (sendDocument text codec topic ⟨name⟩ docId).run s = (.raise exn, s.asked) := by
        rw [sendDocument, run_engine_bind, Collection.run_readDocument_refusing, hresult]
        simp only [Outcome.ofExcept, Serving.after_refusing, Serving.asked]
      rw [Action.run_bind_of_raise hfirst]
      exact (sends_nil topic s).symm
    · have hfirst : (sendDocument text codec topic ⟨name⟩ docId).run s =
          (report false).run s.asked := run_read (c := ⟨name⟩) s hresult _
      rw [Action.run_bind_of_ret (hfirst.trans (Action.run_modify _ _)), ih]
      rfl
    · have hread := run_read (c := ⟨name⟩) s hresult
      rcases hdump : text.dump doc.data_ with what | payload
      · have hfirst : (sendDocument text codec topic ⟨name⟩ docId).run s =
            (.raise (.exception what), s.asked) := by
          refine (hread _).trans ?_
          simp only [hdump]
          rfl
        rw [Action.run_bind_of_raise hfirst]
        simp only [hdump]
        exact (sends_nil topic s).symm
      · have hfirst : (sendDocument text codec topic ⟨name⟩ docId).run s =
            (send_response topic payload).run s.asked := by
          refine (hread _).trans ?_
          simp only [hdump]
          rfl
        rw [Action.run_bind_of_ret (hfirst.trans (Action.run_modify _ _)), ih]
        simp only [hdump]
        exact published_send topic payload _ s.asked

/-- The handlers on a collection send what they send when they go on. -/
theorem published_onCollection {args : Except Exn α} {use : Bytes → α → Collection → Service Unit}
    {payloads : Bytes → α → List Bytes} {s : Serving}
    (huse : ∀ name a, ((use name a ⟨name⟩).run (s.looked name)).2.published =
      s.sends topic (payloads name a)) :
    ((onCollection req fun name => useOn name args (use name)).run s).2.published =
      s.sends topic ((s.opening req args).sends payloads) := by
  by_cases honto : ∃ name a, s.opening req args = .onto name a
  · obtain ⟨name, a, hopening⟩ := honto
    have hcaught := overlooks_sent.caught (Bytes.ofText "Exception: ") (use name a ⟨name⟩)
      (s.looked name)
    rw [run_of_onto hopening, hopening, ← (sent_iff.mp hcaught).1]
    exact huse name a
  · have hsent := @sent_of_not_onto _ _ args use s fun name a h => honto ⟨name, a, h⟩
    have hnone : (s.opening req args).sends payloads = [] := by
      rcases hopening : s.opening req args with _ | _ | ⟨name, a⟩
      · rfl
      · rfl
      · exact absurd ⟨name, a, hopening⟩ honto
    rw [hnone, sends_nil]
    exact (sent_iff.mp hsent).1.symm

/-- `handle_read_document`. -/
theorem published_handle_read_document (s : Serving) :
    ((handle_read_document text codec req topic).run s).2.published =
      s.sends topic (s.entriesSent text codec req) := by
  rw [handle_read_document_eq]
  refine @published_onCollection _ _ _ _ (fun _ => readOn text codec topic) _ _ fun name args => ?_
  rcases args with docId | limit
  · -- the document becomes the reply
    have hsilent : (readOn text codec topic (.inl docId) ⟨name⟩).Frames sent := by
      refine (sent_engine _).bind fun found => ?_
      cases found with
      | error result => exact overlooks_sent.complain _
      | ok doc => exact Action.frames_modify fun s => overlooks_sent.reply s _ _
    exact (sent_iff.mp (hsilent (s.looked name))).1.symm.trans (sends_nil topic s).symm
  · have hask := run_ask (x := .cursor name none) (s.looked name) (fun _ => rfl) fun entries =>
      sendEntries text codec topic (entries.take limit.toNat)
    refine (congrArg (·.2.published) hask).trans ?_
    exact published_sendEntries _ (s.looked name).asked

/-- `handle_find_documents`. -/
theorem published_handle_find_documents (s : Serving) :
    ((handle_find_documents text codec req topic).run s).2.published =
      s.sends topic (s.documentsSent text codec req) := by
  rw [handle_find_documents_eq]
  refine @published_onCollection _ _ _ _ (fun _ => findOn text codec topic) _ _ fun name query => ?_
  have hengine : (s.looked name).engine = s.engine := rfl
  rw [findOn, Action.run_bind_of_ret (Action.run_get _), hengine]
  rcases Collection.findDocument codec ⟨name⟩ s.engine query with exn | docIds
  · exact (sends_nil topic s).symm
  · exact published_sendDocuments name docIds _

/-- **What a handler sends.** -/
theorem published_handle (command : Command) (s : Serving) :
    ((command.handle text codec d req topic).run s).2.published =
      s.sends topic (command.responses text codec s req) := by
  have htail (x : Service Unit) := (sent_iff.mp (Action.frames_after (x := x)
    (fun _ => overlooks_sent.set status (.string success)) s)).1
  have hsilent (h : ¬(command = .read_document ∨ command = .find_documents)) :
      ((command.handle text codec d req topic).run s).2.published = s.published := by
    have hframe : (command.handle text codec d req topic).Frames sent :=
      frames_handle overlooks_sent command (fun hsends => absurd hsends h) (sent_engine _)
        fun _ _ _ p _ => sent_engine p
    exact (sent_iff.mp (hframe s)).1.symm
  cases command with
  | read_document => exact (htail _).symm.trans (published_handle_read_document s)
  | find_documents => exact (htail _).symm.trans (published_handle_find_documents s)
  | _ => exact (hsilent (by decide)).trans (sends_nil topic s).symm

end Service

/-! ### What is published -/

namespace Server

variable {text : JsonText} {codec : Codec} {s : Server} {d : Delivery}

theorem published_of_asked {command : Command} {req : Json}
    (hasked : text.asked d.payload = .ok (command, req)) : (s.serve text codec d).2.published =
      (kept d.taken (command.responses text codec (s.begun text d) req)).map
        (Prod.mk (Collection.cString (text.topic d.payload))) := by
  have hreply (x : Service Unit) := (Service.sent_iff.mp (Service.frames_reply text x
    (s.begun text d))).1
  have hcaught := Service.overlooks_sent.caught (Bytes.ofText "Exception :")
    (command.handle text codec d req (text.topic d.payload)) (s.begun text d)
  rw [serve_of_asked hasked, ← hreply, ← (Service.sent_iff.mp hcaught).1,
    Service.published_handle]
  rfl

/-- **What is published for a request** is what its handler sends, less what NNG does not take, on
the topic of the request. -/
theorem published_serve : (s.serve text codec d).2.published =
    (kept d.taken (s.responses text codec d)).map
      (Prod.mk (Collection.cString (text.topic d.payload))) := by
  rw [responses]
  rcases hasked : text.asked d.payload with complaint | ⟨command, req⟩
  · rw [serve_of_not_asked hasked]
    exact (Service.sent_iff.mp (Service.frames_reply _ (pure ()) _)).1.symm
  · exact published_of_asked hasked

/-! ### Answers to queries -/

/-- The reply that says success and nothing else. -/
theorem exists_success {o : Outcome Exn Bytes × Serving} {s' : Serving} (h : o =
      (.ofExcept ((text.dump (.object [(Service.status, .string Service.success)])).mapError
        Exn.exception), s')) :
    ∃ reply, o.1 = .ret reply ∧
      text.dump (.object [(Service.status, .string Service.success)]) = .ok reply := by
  have hsuccess : (Json.object [(Service.status, .string Service.success)]).isUtf8 = true := by
    decide
  obtain ⟨reply, hreply⟩ := (text.dump_ok_iff _).mpr hsuccess
  refine ⟨reply, ?_, hreply⟩
  rw [h, hreply]
  rfl

variable (text) in
/-- The texts of documents that are stored, where RocksDB refuses nothing. -/
theorem forall₂_documentTexts {e : StorageEngine} {name : Bytes} {docIds : List Bytes}
    (h : ∀ id ∈ docIds, ∃ doc, e.document codec name id = some doc ∧ doc.data_.isUtf8 = true) :
    List.Forall₂ (fun id payload => ∃ doc, e.document codec name id = some doc ∧
        text.dump doc.data_ = .ok payload) docIds
      (documentTexts text codec e name (Stream'.const none) docIds) := by
  induction docIds with
  | nil => exact .nil
  | cons docId docIds ih =>
    obtain ⟨⟨doc, hdoc, hutf8⟩, hrest⟩ := List.forall_mem_cons.mp h
    obtain ⟨payload, hpayload⟩ := (text.dump_ok_iff doc.data_).mpr hutf8
    have hread : e.readDocument codec (Stream'.const none : Stream' (Option Bytes)).head name docId =
        .ok (.ok doc) := StorageEngine.readDocument_eq_ok_iff.mpr ⟨rfl, hdoc⟩
    simp only [documentTexts, hread, hpayload]
    exact .cons ⟨doc, hdoc, hpayload⟩ (ih hrest)

/-- And they are all read. -/
theorem readsAll_calm {e : StorageEngine} {name : Bytes} {docIds : List Bytes}
    (h : ∀ id ∈ docIds, ∃ doc, e.document codec name id = some doc ∧ doc.data_.isUtf8 = true) :
    Service.ReadsAll codec e name (Stream'.const none) docIds := by
  induction docIds with
  | nil => trivial
  | cons docId docIds ih =>
    obtain ⟨⟨doc, hdoc, hutf8⟩, hrest⟩ := List.forall_mem_cons.mp h
    exact ⟨⟨doc, StorageEngine.readDocument_eq_ok_iff.mpr ⟨rfl, hdoc⟩, hutf8⟩, ih hrest⟩

/-- **A query is answered with the documents it finds**, whatever it asks for: where the indexes of
the collection have entries of stored documents only, what is published is the text of each document
found, in the order they are found in, and the reply says success. -/
theorem answers_found {req query : Json} {name : Bytes} {docIds : List Bytes}
    (hcodec : codec.ThrowsText) (hasked : text.asked d.payload = .ok (.find_documents, req))
    (hopening : s.opening req (Service.findArgs req) = .onto name query)
    (hsound : ∀ f key id, (key, id) ∈ s.engine.cursor (indexFamily name f) →
      ∃ doc, s.engine.document codec name id = some doc ∧ doc.data_.isUtf8 = true)
    (hfind : Collection.findDocument codec ⟨name⟩ s.engine query = .ok docIds)
    (hrefusals : d.refusals = Stream'.const none) (htaken : d.taken = Stream'.const true) :
    (∃ payloads, List.Forall₂ (fun id payload => ∃ doc, s.engine.document codec name id = some doc ∧
        text.dump doc.data_ = .ok payload) docIds payloads ∧
      (s.serve text codec d).2.published =
        payloads.map (Prod.mk (Collection.cString (text.topic d.payload)))) ∧
      ∃ reply, (s.serve text codec d).1 = .ret reply ∧
        text.dump (.object [(Service.status, .string Service.success)]) = .ok reply := by
  have hstored := Collection.forall_findDocument (c := ⟨name⟩)
    (P := fun id => ∃ doc, s.engine.document codec name id = some doc ∧ doc.data_.isUtf8 = true)
    hsound hfind
  have hlooked : ((s.begun text d).looked name).refusals = Stream'.const none := by
    show (if s.Holds name then d.refusals else d.refusals.tail) = _
    rw [hrefusals]
    split_ifs <;> rfl
  refine ⟨⟨_, forall₂_documentTexts text hstored, ?_⟩, ?_⟩
  · have hresponses : Command.find_documents.responses text codec (s.begun text d) req =
        documentTexts text codec s.engine name (Stream'.const none) docIds := by
      show (Opening.sends _ (s.opening req (Service.findArgs req))) = _
      rw [hopening, Opening.sends, hlooked]
      show ((Except.toOption (Collection.findDocument codec ⟨name⟩ s.engine query)).map _).getD [] = _
      rw [hfind]
      rfl
    rw [published_of_asked hasked, hresponses, htaken, kept_const_true]
  · rcases Service.ends_find text (text.topic d.payload) hcodec (blank_begun text s d) hopening hfind
      with ⟨failed, hends, -⟩ | ⟨what, -, hnot, -⟩
    · obtain ⟨s', hserve, -⟩ := answers_of_ends hasked (hends.succeeded rfl)
      exact exists_success hserve
    · exact absurd (hlooked ▸ readsAll_calm hstored) hnot

/-- A server on a collection with one document, which is in an index. -/
def onNumber : Server := started (oneNumber 5)

/-- The request for all documents with the field, in order. -/
def finding : Delivery :=
  .calm ((JsonText.standard.dump (.object [
    (Bytes.ofText "command", .string (Bytes.ofText "find_documents")),
    (Bytes.ofText "request_id", .string (Bytes.ofText "1")),
    (Bytes.ofText "collection_name", .string (Bytes.ofText "c")),
    (Bytes.ofText "query", rangeQuery "$orderBy" (Bytes.ofText "f") (.string (Bytes.ofText "asc")))])
    ).toOption.getD [])

/-- The entries of all its indexes are of the document. -/
theorem sound_onNumber (f key id : Bytes)
    (h : (key, id) ∈ onNumber.engine.cursor (indexFamily letterC.name_ f)) :
    ∃ doc, onNumber.engine.document .standard letterC.name_ id = some doc ∧
      doc.data_.isUtf8 = true := by
  have hlookup : (oneNumber 5).lookup (indexFamily letterC.name_ f) key = some id :=
    StorageEngine.mem_cursor.mp h
  have hmem : f ∈ (oneNumber 5).getIndexNames letterC.name_ := by
    refine StorageEngine.mem_getIndexNames.mpr ⟨StorageEngine.mem_iff_contents.mpr ?_, by decide⟩
    obtain ⟨cf, hcf, -⟩ := Option.bind_eq_some_iff.mp hlookup
    rw [hcf]
    rfl
  have hlisted : (oneNumber 5).getIndexNames letterC.name_ = [Bytes.ofText "f"] := by decide +kernel
  rw [hlisted, List.mem_singleton] at hmem
  subst hmem
  obtain ⟨doc, hdoc, -⟩ := (exactIndex_oneNumber 5).sound key id hlookup
  obtain ⟨-, rfl⟩ := document_oneNumber.mp hdoc
  exact ⟨_, hdoc, by decide⟩

theorem answers_found_onNumber : ∃ doc payload,
    onNumber.engine.document .standard letterC.name_ (Bytes.ofText "a") = some doc ∧
    JsonText.standard.dump doc.data_ = .ok payload ∧
    (onNumber.serve .standard .standard finding).2.published =
      [(Bytes.ofText "anudb/response/1", payload)] := by
  obtain ⟨req, hasked, hname⟩ := @exists_asked .find_documents finding.payload letterC.name_
    (by decide +kernel) (by decide +kernel)
  have hquery : (JsonText.standard.asked finding.payload).toOption.bind (fun x =>
      (Service.findArgs x.2).toOption.bind fun query =>
        (letterC.findDocument .standard onNumber.engine query).toOption) = some [Bytes.ofText "a"] := by
    decide +kernel
  rw [hasked] at hquery
  obtain ⟨query, hargs, hfind⟩ : ∃ query, (Service.findArgs req).toOption = some query ∧
      (letterC.findDocument .standard onNumber.engine query).toOption = some [Bytes.ofText "a"] :=
    Option.bind_eq_some_iff.mp hquery
  have hopening : onNumber.opening req (Service.findArgs req) = .onto letterC.name_ query :=
    opening_eq_onto_iff.mpr ⟨hname, by decide +kernel, eq_ok_of_toOption hargs, by decide +kernel⟩
  obtain ⟨⟨payloads, hpayloads, hpublished⟩, -⟩ := answers_found Codec.throwsText_standard hasked
    hopening sound_onNumber (eq_ok_of_toOption hfind) rfl rfl
  obtain ⟨payload, rest, ⟨doc, hdoc, hdump⟩, hrest, rfl⟩ := List.forall₂_cons_left_iff.mp hpayloads
  obtain rfl := List.forall₂_nil_left_iff.mp hrest
  have htopic : Collection.cString (JsonText.standard.topic finding.payload) =
      Bytes.ofText "anudb/response/1" := by decide +kernel
  exact ⟨doc, payload, hdoc, hdump, by rw [hpublished, htopic]; rfl⟩

/-! ### Answers to a request for all -/

end Server

end AnuDB
