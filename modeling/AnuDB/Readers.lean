import AnuDB.Handlers
import AnuDB.Texts

/-!
# The runs of the handlers that read

These leave the engine as it is. What they answer is a listing, or the data of a document, or
nothing where the documents were sent one by one; what goes wrong in between is thrown, and
cuts the sending short, or is passed over, as is a document that a query has found and that
cannot be read.

Two of the commands have their success set afterwards, whatever was answered before
(`AnuDB.Service.Ends.succeeded`).
-/

namespace AnuDB

open Effect

/-- A call by itself, where RocksDB refuses what it is said to refuse. -/
theorem Engine.run_perform_refusing {e : StorageEngine} {r : Stream' (Option Bytes)} (x : Call) :
    Engine.run (Prog.perform x) (.refusing e r) =
      (.ret (e.exec r.head x).1, .refusing (e.exec r.head x).2 r.tail) := by
  rw [← bind_pure (Prog.perform x), Engine.run_call_bind_refusing]
  rfl

/-- Reading a document, where RocksDB refuses what it is said to refuse. -/
theorem Collection.run_readDocument_refusing {codec : Codec} {c : Collection}
    {e : StorageEngine} {r : Stream' (Option Bytes)} (id : Bytes) :
    (c.readDocument codec id).run (.refusing e r) =
      (.ofExcept (e.readDocument codec r.head c.name_ id), .refusing e r.tail) := by
  have hfault : (World.refusing e r).fates.head.fault? = some r.head := by
    change (Option.elim r.head Fate.ok Fate.fail).fault? = _
    cases r.head <;> rfl
  rw [Collection.run_readDocument, hfault]
  rfl

/-- What is there when RocksDB has been asked something. -/
def Serving.asked (s : Serving) : Serving := { s with refusals := s.refusals.tail }

namespace Service

variable {text : JsonText} {codec : Codec} {d : Delivery} {req : Json} {topic : Bytes}
  {s : Serving} {name : Bytes}

/-- A call that leaves the engine as it is. -/
theorem run_ask {α : Type} {x : Call} {reply : x.Reply} (s : Serving)
    (h : ∀ fault, s.engine.exec fault x = (reply, s.engine)) (k : x.Reply → Service α) :
    (engine (Prog.perform x) >>= k).run s = (k reply).run s.asked := by
  rw [run_engine_bind, Engine.run_perform_refusing, h]
  simp only [Serving.after_refusing, Serving.asked]

/-- A document that is read, and then the rest. -/
theorem run_read {c : Collection} {docId : Bytes} {result : Except Status Document} (s : Serving)
    (h : s.engine.readDocument codec s.refusals.head c.name_ docId = .ok result)
    (k : Except Status Document → Service Unit) :
    (engine (c.readDocument codec docId) >>= k).run s = (k result).run s.asked := by
  rw [run_engine_bind, Collection.run_readDocument_refusing, h]
  simp only [Outcome.ofExcept, Serving.after_refusing, Serving.asked]

/-! ### Listings -/

theorem ends_get_collections (hs : s.Blank) : Ends handle_get_collections s s.engine
    (answered [(Bytes.ofText "Collections", commaList s.engine.getCollectionNames)]) false := by
  have hask := run_ask (x := .getCollectionNames) s (fun _ => rfl)
    fun names => set (Bytes.ofText "Collections") (.string (commaList names))
  refine ⟨{ s.asked with resp := _ }, hask.trans ?_, rfl, rfl, hs.2⟩
  have hresp : s.asked.resp = .null := hs.1
  rw [Action.run, set, hresp]
  rfl

theorem handle_get_indexes_eq : handle_get_indexes req =
    onCollection req fun name => useOn name (.ok ()) fun _ c => (do
      let indexes ← engine c.getIndex
      answer [(Bytes.ofText "collection", name), (Bytes.ofText "indexList", commaList indexes)]) :=
  rfl

theorem ends_get_indexes (hs : s.Blank) (h : s.opening req (.ok ()) = .onto name ()) :
    Ends (handle_get_indexes req) s s.engine
      (answered [(Bytes.ofText "collection", name),
        (Bytes.ofText "indexList", commaList (s.engine.getIndexNames name))]) false := by
  have hask := run_ask (x := .getIndexNames name) (s.looked name) (fun _ => rfl) fun indexes =>
    answer [(Bytes.ofText "collection", name), (Bytes.ofText "indexList", commaList indexes)]
  have hanswer := run_answer (s := (s.looked name).asked)
    (List.cons_ne_nil (Bytes.ofText "collection", name)
      [(Bytes.ofText "indexList", commaList (s.engine.getIndexNames name))]) hs.1
  rw [handle_get_indexes_eq]
  exact Ends.of_onto h ⟨_, hask.trans hanswer, rfl, rfl, hs.2⟩

/-! ### Documents, sent one by one -/

/-- What comes of sending the documents a cursor walks. -/
def sending (text : JsonText) (codec : Codec) : List (Bytes × Bytes) → Except Exn Unit
  | [] => .ok ()
  | (_, value) :: entries => do
    let doc ← Document.from_msgpack codec value
    let _ ← (text.dump doc.data_).mapError Exn.exception
    sending text codec entries

/-- The documents are sent, up to the first one that cannot be. -/
theorem run_sendEntries (text codec topic) (entries : List (Bytes × Bytes)) (s : Serving) :
    ∃ s', (sendEntries text codec topic entries).run s =
        (.ofExcept (sending text codec entries), s') ∧
      s'.engine = s.engine ∧ s'.resp = s.resp ∧ s'.failed = s.failed := by
  induction entries generalizing s with
  | nil => exact ⟨s, rfl, rfl, rfl, rfl⟩
  | cons x entries ih =>
    rw [sendEntries, sending]
    rcases Document.from_msgpack codec x.2 with exn | doc
    · exact ⟨s, rfl, rfl, rfl, rfl⟩
    rw [Action.ofExcept_ok, Action.pure_bind', ok_bind]
    rcases (text.dump doc.data_).mapError Exn.exception with exn | payload
    · exact ⟨s, rfl, rfl, rfl, rfl⟩
    · rw [Action.ofExcept_ok, Action.pure_bind', ok_bind]
      exact ih _

theorem throwsText_sending (hcodec : codec.ThrowsText) (entries : List (Bytes × Bytes)) :
    ThrowsText (sending text codec entries) := by
  induction entries with
  | nil => exact ThrowsText.ok _
  | cons x entries ih =>
    refine (Document.throwsText_from_msgpack hcodec x.2).bind fun doc => ?_
    refine ThrowsText.bind ?_ fun _ => ih
    rcases hdump : text.dump doc.data_ with what | payload
    · exact ThrowsText.error (text.valid_of_dump_error hdump)
    · exact ThrowsText.ok _

/-- **Every document of the list is read**, and its data dumped. -/
def ReadsAll (codec : Codec) (e : StorageEngine) (name : Bytes) :
    Stream' (Option Bytes) → List Bytes → Prop
  | _, [] => True
  | r, docId :: docIds =>
    (∃ doc, e.readDocument codec r.head name docId = .ok (.ok doc) ∧ doc.data_.isUtf8 = true) ∧
      ReadsAll codec e name r.tail docIds

/-- **The documents of a list are sent.** One that cannot be read is left out, and goes down as a
failure; one that cannot be dumped ends the sending. -/
theorem run_sendDocuments (text topic name) (hcodec : codec.ThrowsText) (docIds : List Bytes) (s : Serving) :
    (∃ s', (sendDocuments text codec topic ⟨name⟩ docIds).run s = (.ret (), s') ∧
      s'.engine = s.engine ∧ s'.resp = s.resp ∧
      (s'.failed = false ↔ s.failed = false ∧ ReadsAll codec s.engine name s.refusals docIds)) ∨
    ∃ what s', (sendDocuments text codec topic ⟨name⟩ docIds).run s =
        (.raise (.exception what), s') ∧
      s'.engine = s.engine ∧ s'.resp = s.resp ∧ Utf8.Valid what ∧
      ¬ReadsAll codec s.engine name s.refusals docIds := by
  induction docIds generalizing s with
  | nil => exact Or.inl ⟨s, rfl, rfl, rfl, (and_iff_left trivial).symm⟩
  | cons docId docIds ih =>
    obtain ⟨result, hresult⟩ := s.engine.exists_readDocument hcodec s.refusals.head name docId
    have hread := run_read (c := ⟨name⟩) s hresult
    rw [sendDocuments, ReadsAll]
    rcases result with status | doc
    · -- what cannot be read is reported, and the next one is sent
      have hnot : ¬∃ doc, s.engine.readDocument codec s.refusals.head name docId = .ok (.ok doc) ∧
          doc.data_.isUtf8 = true := by
        rintro ⟨doc, hdoc, -⟩
        rw [hresult] at hdoc
        cases Except.ok.inj hdoc
      have hfirst : (sendDocument text codec topic ⟨name⟩ docId).run s =
          (.ret (), { s.asked with failed := true }) := by
        refine (hread _).trans ?_
        simp only [report, Action.run_modify, Bool.not_false, Bool.or_true]
      rw [Action.run_bind_of_ret hfirst]
      rcases ih { s.asked with failed := true } with
        ⟨s', hrun, he, hresp, hfailed⟩ | ⟨what, s', hrun, he, hresp, hwhat, -⟩
      · refine Or.inl ⟨s', hrun, he, hresp, ?_⟩
        exact iff_of_false (fun h => by cases (hfailed.mp h).1) fun h => hnot h.2.1
      · exact Or.inr ⟨what, s', hrun, he, hresp, hwhat, fun h => hnot h.1⟩
    · rcases hdump : text.dump doc.data_ with what | payload
      · -- what cannot be dumped ends the loop
        have hfirst : (sendDocument text codec topic ⟨name⟩ docId).run s =
            (.raise (.exception what), s.asked) := by
          refine (hread _).trans ?_
          simp only [hdump]
          rfl
        rw [Action.run_bind_of_raise hfirst]
        refine Or.inr ⟨what, _, rfl, rfl, rfl, text.valid_of_dump_error hdump, ?_⟩
        rintro ⟨⟨doc', hdoc, hutf8⟩, -⟩
        rw [hresult] at hdoc
        obtain rfl := Except.ok.inj (Except.ok.inj hdoc)
        obtain ⟨payload, hpayload⟩ := (text.dump_ok_iff doc.data_).mpr hutf8
        rw [hpayload] at hdump
        cases hdump
      · have hhead : ∃ doc, s.engine.readDocument codec s.refusals.head name docId = .ok (.ok doc) ∧
            doc.data_.isUtf8 = true := ⟨doc, hresult, (text.dump_ok_iff _).mp ⟨payload, hdump⟩⟩
        have hfirst : (sendDocument text codec topic ⟨name⟩ docId).run s =
            (send_response topic payload).run s.asked := by
          refine (hread _).trans ?_
          simp only [hdump]
          rfl
        rw [Action.run_bind_of_ret hfirst, and_iff_right hhead]
        exact ih _

/-! ### Reading -/

/-- What `handle_read_document` reads of a request: an id, or how many documents to send. -/
def readArgs (req : Json) : Except Exn (Bytes ⊕ UInt32) :=
  if req.contains (Bytes.ofText "document_id") then
    Sum.inl <$> req.stringAt (Bytes.ofText "document_id")
  else Sum.inr <$> readLimit req

/-- What `handle_read_document` does then. -/
def readOn (text : JsonText) (codec : Codec) (response_topic : Bytes) :
    Bytes ⊕ UInt32 → Collection → Service Unit
  | .inl docId, c => do
    match ← engine (c.readDocument codec docId) with
    | .error result => do
      report false
      answer [(status, Bytes.ofText "failed to read document"), (message, result.msg)]
    | .ok doc => Action.modify fun s => { s with resp := doc.data_ }
  | .inr limit, c => do
    let entries ← engine (Engine.cursor c.name_ none)
    sendEntries text codec response_topic (entries.take limit.toNat)

theorem handle_read_document_eq : handle_read_document text codec req topic =
    onCollection req fun name => useOn name (readArgs req) (readOn text codec topic) := by
  rw [handle_read_document]
  congr 1
  funext name
  rw [readArgs]
  split_ifs
  · rcases req.stringAt (Bytes.ofText "document_id") with exn | docId <;> rfl
  · rcases readLimit req with exn | limit <;> rfl

section Read

variable {docId : Bytes} {limit : UInt32}

/-- A document that is read becomes the reply. -/
theorem ends_read_one {doc : Document} (hs : s.Blank)
    (h : s.opening req (readArgs req) = .onto name (.inl docId))
    (hread : s.engine.readDocument codec (s.looked name).refusals.head name docId = .ok (.ok doc)) :
    Ends (handle_read_document text codec req topic) s s.engine doc.data_ false := by
  rw [handle_read_document_eq]
  refine Ends.of_onto h ⟨{ (s.looked name).asked with resp := doc.data_ }, ?_, rfl, rfl, hs.2⟩
  exact run_read (c := ⟨name⟩) (s.looked name) hread _

/-- One that is not is complained about. -/
theorem ends_read_one_of_error {result : Status} (hs : s.Blank)
    (h : s.opening req (readArgs req) = .onto name (.inl docId))
    (hread : s.engine.readDocument codec (s.looked name).refusals.head name docId =
      .ok (.error result)) :
    Ends (handle_read_document text codec req topic) s s.engine
      (answered [(status, Bytes.ofText "failed to read document"), (message, result.msg)])
      true := by
  rw [handle_read_document_eq]
  refine Ends.of_onto h ⟨{ (s.looked name).asked with failed := true, resp := _ }, ?_, rfl, rfl, rfl⟩
  refine (run_read (c := ⟨name⟩) (s.looked name) hread _).trans ?_
  have hanswer := run_answer (s := { (s.looked name).asked with failed := true })
    (List.cons_ne_nil (status, Bytes.ofText "failed to read document") [(message, result.msg)]) hs.1
  refine Eq.trans ?_ hanswer
  simp only [Action.run_bind, report, Action.run_modify, Bool.not_false, Bool.or_true]

/-- The documents a cursor walks, sent. -/
theorem run_readOn_inr (text codec topic name limit) (s : Serving) : ∃ s',
    (readOn text codec topic (.inr limit) ⟨name⟩).run s =
        (.ofExcept (sending text codec ((s.engine.cursor name).take limit.toNat)), s') ∧
      s'.engine = s.engine ∧ s'.resp = s.resp ∧ s'.failed = s.failed := by
  obtain ⟨s', hrun, hs'⟩ := run_sendEntries text codec topic
    ((s.engine.cursor name).take limit.toNat) s.asked
  refine ⟨s', ?_, hs'⟩
  exact (run_ask (x := .cursor name none) s (fun _ => rfl) _).trans hrun

/-- All of them are sent, and the reply stays empty. -/
theorem ends_read_all (hs : s.Blank) (h : s.opening req (readArgs req) = .onto name (.inr limit))
    (hsend : sending text codec ((s.engine.cursor name).take limit.toNat) = .ok ()) :
    Ends (handle_read_document text codec req topic) s s.engine .null false := by
  obtain ⟨s', hrun, he, hresp, hfailed⟩ := run_readOn_inr text codec topic name limit
    (s.looked name)
  rw [handle_read_document_eq]
  refine Ends.of_onto h ⟨s', hrun.trans ?_, he, hresp.trans hs.1, hfailed.trans hs.2⟩
  have hengine : (s.looked name).engine = s.engine := rfl
  rw [hengine, hsend]
  rfl

/-- Something is thrown on the way. -/
theorem ends_read_all_of_error {what : Bytes} (hs : s.Blank)
    (h : s.opening req (readArgs req) = .onto name (.inr limit))
    (hsend : sending text codec ((s.engine.cursor name).take limit.toNat) =
      .error (.exception what)) :
    Ends (handle_read_document text codec req topic) s s.engine
      (complaint (Bytes.ofText "Exception: " ++ what)) true := by
  obtain ⟨s', hrun, he, hresp, -⟩ := run_readOn_inr text codec topic name limit
    (s.looked name)
  rw [handle_read_document_eq]
  refine Throws.of_onto h ⟨s', hrun.trans ?_, he, hresp.trans hs.1⟩
  have hengine : (s.looked name).engine = s.engine := rfl
  rw [hengine, hsend]
  rfl

end Read

/-! ### Finding -/

/-- What `handle_find_documents` reads of a request. -/
def findArgs (req : Json) : Except Exn Json := do
  let _ ← req.stringAt (Bytes.ofText "request_id")
  req.index (Bytes.ofText "query")

/-- What `handle_find_documents` does then. -/
def findOn (text : JsonText) (codec : Codec) (response_topic : Bytes) (query : Json)
    (c : Collection) : Service Unit := do
  let s ← Action.get
  let docIds ← Action.ofExcept (c.findDocument codec s.engine query)
  report (c.findReports codec s.engine query)
  sendDocuments text codec response_topic c docIds

theorem handle_find_documents_eq : handle_find_documents text codec req topic =
    onCollection req fun name => useOn name (findArgs req) (findOn text codec topic) := by
  rw [handle_find_documents]
  congr 1
  funext name
  rw [findArgs]
  rcases req.stringAt (Bytes.ofText "request_id") with exn | id
  · rfl
  · rcases req.index (Bytes.ofText "query") with exn | query <;> rfl

section Find

variable {query : Json} {docIds : List Bytes}

/-- **A query has found its documents, and they are sent**: the reply stays empty, unless one of
them cannot be dumped. -/
theorem ends_find (text topic) (hcodec : codec.ThrowsText) (hs : s.Blank)
    (h : s.opening req (findArgs req) = .onto name query)
    (hfind : Collection.findDocument codec ⟨name⟩ s.engine query = .ok docIds) :
    (∃ failed, Ends (handle_find_documents text codec req topic) s s.engine .null failed ∧
      (failed = false ↔ Collection.findReports codec ⟨name⟩ s.engine query = true ∧
        ReadsAll codec s.engine name (s.looked name).refusals docIds)) ∨
    ∃ what, Utf8.Valid what ∧ ¬ReadsAll codec s.engine name (s.looked name).refusals docIds ∧
      Ends (handle_find_documents text codec req topic) s s.engine
        (complaint (Bytes.ofText "Exception: " ++ what)) true := by
  have hrun : (findOn text codec topic query ⟨name⟩).run (s.looked name) =
      (sendDocuments text codec topic ⟨name⟩ docIds).run { s.looked name with
        failed := !Collection.findReports codec ⟨name⟩ s.engine query } := by
    have hfind' : Collection.findDocument codec ⟨name⟩ (s.looked name).engine query = .ok docIds := hfind
    rw [findOn, Action.run_bind_of_ret (Action.run_get _), hfind', Action.ofExcept_ok,
      Action.pure_bind']
    have hfailed : (s.looked name).failed = false := hs.2
    simp only [Action.run_bind, report, Action.run_modify, hfailed, Bool.false_or]
    rfl
  rw [handle_find_documents_eq]
  rcases run_sendDocuments text topic name hcodec docIds
    { s.looked name with failed := !Collection.findReports codec ⟨name⟩ s.engine query } with
    ⟨s', hsend, he, hresp, hfailed⟩ | ⟨what, s', hsend, he, hresp, hwhat, hreads⟩
  · refine Or.inl ⟨s'.failed, Ends.of_onto h ⟨s', hrun.trans hsend, he, hresp.trans hs.1, rfl⟩, ?_⟩
    rw [hfailed, Bool.not_eq_false']
    exact Iff.rfl
  · exact Or.inr ⟨what, hwhat, hreads,
      Throws.of_onto h ⟨s', hrun.trans hsend, he, hresp.trans hs.1⟩⟩

/-- A query that throws is complained about. -/
theorem ends_find_of_exception {what : Bytes} (hs : s.Blank)
    (h : s.opening req (findArgs req) = .onto name query)
    (hfind : Collection.findDocument codec ⟨name⟩ s.engine query = .error (.exception what)) :
    Ends (handle_find_documents text codec req topic) s s.engine
      (complaint (Bytes.ofText "Exception: " ++ what)) true := by
  rw [handle_find_documents_eq]
  refine Throws.of_onto h ⟨s.looked name, ?_, rfl, hs.1⟩
  have hfind' : Collection.findDocument codec ⟨name⟩ (s.looked name).engine query =
      .error (.exception what) := hfind
  rw [findOn, Action.run_bind_of_ret (Action.run_get _), hfind']
  rfl

theorem crashes_find {u : Undefined} (text codec topic) (h : s.opening req (findArgs req) = .onto name query)
    (hfind : Collection.findDocument codec ⟨name⟩ s.engine query = .error (.undefined u)) :
    Crashes (handle_find_documents text codec req topic) s := by
  rw [handle_find_documents_eq]
  refine Crashes.of_onto h ⟨u, s.looked name, ?_⟩
  have hfind' : Collection.findDocument codec ⟨name⟩ (s.looked name).engine query =
      .error (.undefined u) := hfind
  rw [findOn, Action.run_bind_of_ret (Action.run_get _), hfind']
  rfl

end Find

/-! ### Exports -/

/-- What `handle_export_collection` does with its argument. -/
def exportOn (text : JsonText) (codec : Codec) (d : Delivery) (name destDir : Bytes)
    (c : Collection) : Service Unit := do
  let result ← exportAllToJsonAsync text codec d c destDir
  conclude result
    [(message, Bytes.ofText "Collection: " ++ name ++ Bytes.ofText " exported successfully to " ++
      destDir)] error

theorem handle_export_collection_eq : handle_export_collection text codec d req =
    onCollection req fun name => useOn name (req.stringAt (Bytes.ofText "dest_dir"))
      (exportOn text codec d name) := rfl

section Export

variable {destDir : Bytes} {files : Files}

/-- **Success is answered whatever an export comes to.** -/
theorem ends_export {result : Status} (hs : s.Blank)
    (h : s.opening req (req.stringAt (Bytes.ofText "dest_dir")) = .onto name destDir)
    (hexport : s.engine.exportAllToJson text codec d.os s.files name destDir = (.ok result, files)) :
    Ends (handle_export_collection text codec d req) s s.engine
      (answered [(status, success), (message, Bytes.ofText "Collection: " ++ name ++
        Bytes.ofText " exported successfully to " ++ destDir)]) (!result.ok) := by
  have hrun : (exportAllToJsonAsync text codec d ⟨name⟩ destDir).run (s.looked name) =
      (.ret .OK, { s.looked name with files, failed := !result.ok }) := by
    have hfailed : (s.looked name).failed = false := hs.2
    have hexport' : (s.looked name).engine.exportAllToJson text codec d.os (s.looked name).files
      name destDir = (.ok result, files) := hexport
    rw [exportAllToJsonAsync, Action.run_bind_of_ret (Action.run_get _)]
    simp only [hexport', Action.run_bind, report, Action.run_modify, hfailed, Bool.false_or]
    rfl
  rw [handle_export_collection_eq]
  refine Ends.of_onto h ⟨{ s.looked name with files, failed := !result.ok, resp := _ }, ?_, rfl,
    rfl, rfl⟩
  -- the status that is reported is OK, so the handler takes the export for one that succeeded
  have hreport : (report Status.OK.ok).run { s.looked name with files, failed := !result.ok } =
      (.ret (), { s.looked name with files, failed := !result.ok }) := by
    rw [report, Action.run_modify, Status.ok_OK, Bool.not_true, Bool.or_false]
  rw [exportOn, Action.run_bind_of_ret hrun, conclude, Action.run_bind_of_ret hreport,
    if_pos Status.ok_OK]
  exact run_answer (List.cons_ne_nil _ _) hs.1

/-- An exception in the thread of an export ends the process. -/
theorem crashes_export {exn : Exn}
    (h : s.opening req (req.stringAt (Bytes.ofText "dest_dir")) = .onto name destDir)
    (hexport : s.engine.exportAllToJson text codec d.os s.files name destDir = (.error exn, files)) :
    Crashes (handle_export_collection text codec d req) s := by
  have hexport' : (s.looked name).engine.exportAllToJson text codec d.os (s.looked name).files
    name destDir = (.error exn, files) := hexport
  rw [handle_export_collection_eq]
  refine Crashes.of_onto h ⟨.terminate, { s.looked name with files }, ?_⟩
  rw [exportOn, exportAllToJsonAsync]
  simp only [Action.run_bind, Action.run_get, hexport', Action.run_modify]
  rfl

end Export

/-! ### Success, set afterwards -/

/-- What was answered before keeps its place, but for the status. -/
theorem Ends.succeeded {x : Service Unit} {e : StorageEngine} {resp resp' : Json} {failed : Bool}
    (h : Ends x s e resp failed) (hset : resp.setMember status (.string success) = .ok resp') :
    Ends (do x; set status (.string success)) s e resp' failed := by
  obtain ⟨s', hrun, he, hresp, hfailed⟩ := h
  refine ⟨{ s' with resp := resp' }, ?_, he, rfl, hfailed⟩
  rw [Action.run_bind_of_ret hrun, Action.run, set, hresp, hset]

end Service

/-- A value that has no members has none whatever they are. -/
theorem Json.setMember_eq_error {j value : Json} {field : Bytes} {exn : Exn}
    (h : j.setMember field value = .error exn) :
    exn = j.notIndexable ∧ ∀ field value, j.setMember field value = .error j.notIndexable := by
  cases j with
  | null => cases h
  | object members => cases h
  | _ => exact ⟨(Except.error.inj h).symm, fun _ _ => rfl⟩

/-- **Where success is set afterwards**, it is part of the reply, or the reply has no members:
then nothing can be put into it about that either, and the exception escapes. -/
theorem Server.answers_or_escapes {text : JsonText} {codec : Codec} {s : Server} {d : Delivery}
    {command : Command} {req resp : Json} {e : StorageEngine} {failed : Bool} {x : Service Unit}
    (hasked : text.asked d.payload = .ok (command, req))
    (hhandle : command.handle text codec d req (text.topic d.payload) =
      (do x; Service.set Service.status (.string Service.success)))
    (h : Service.Ends x (s.begun text d) e resp failed) :
    (∃ resp', resp.setMember Service.status (.string Service.success) = .ok resp' ∧
      s.Answers text codec d e resp' failed) ∨
    (∃ exn, resp.setMember Service.status (.string Service.success) = .error exn) ∧
      ∃ what s', s.serve text codec d = (.raise (.exception what), s') ∧ s'.engine = e := by
  rcases hset : resp.setMember Service.status (.string Service.success) with exn | resp'
  · refine Or.inr ⟨⟨exn, rfl⟩, ?_⟩
    obtain ⟨s', hrun, he, hresp, -⟩ := h
    obtain ⟨rfl, hnone⟩ := Json.setMember_eq_error hset
    have hraise (field : Bytes) (value : Json) (s₁ : Serving) (hs₁ : s₁.resp = resp) :
        (Service.set field value).run s₁ = (.raise resp.notIndexable, s₁) := by
      rw [Action.run, Service.set, hs₁, hnone]
    have hhandled : (command.handle text codec d req (text.topic d.payload)).run
        (s.begun text d) = (.raise resp.notIndexable, s') := by
      rw [hhandle, Action.run_bind_of_ret hrun, hraise _ _ _ hresp]
    have hcaught : (Service.catching (Bytes.ofText "Exception :")
        (command.handle text codec d req (text.topic d.payload))).run (s.begun text d) =
          (.raise resp.notIndexable, { s' with failed := true }) := by
      rw [Service.catching, Action.run_tryCatch, hhandled]
      change ((Service.report false >>= fun _ => _ : Service Unit).run s') = _
      have hreport : (Service.report false).run s' = (.ret (), { s' with failed := true }) := by
        rw [Service.report, Action.run_modify, Bool.not_false, Bool.or_true]
      rw [Action.run_bind_of_ret hreport, Service.answer]
      exact Action.run_bind_of_raise (hraise _ _ _ hresp)
    have hserve : s.serve text codec d = (.raise resp.notIndexable, { s' with failed := true }) := by
      rw [serve_of_asked hasked, Service.reply, Action.run_bind_of_raise hcaught]
    exact ⟨_, _, hserve, he⟩
  · exact Or.inl ⟨resp', rfl, answers_of_ends hasked (hhandle ▸ h.succeeded hset)⟩

end AnuDB
