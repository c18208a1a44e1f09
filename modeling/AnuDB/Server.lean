import AnuDB.Export
import AnuDB.Lib.Action
import AnuDB.Objects
import AnuDB.Query

/-!
# The request handler

`AnuDBMqttClient` answers requests that arrive as MQTT messages. A request is a JSON object with
a `command` and a `request_id`; the handler of the command calls the database, and puts together
the reply, `resp`, one member after the other. `handle_request` dumps it in the end. Exceptions
are caught twice, in the handler and around it, and what the reply held before stays in it; the
dump is outside both.

The server keeps pointers to collection objects of its own, in `collMap_`, and most handlers
begin alike: they look the collection up there, and in the database where it is not, and then
work on it (`AnuDB.Service.onCollection`). A pointer is used as it is, alive or not.

A handler is an action (`Effect.Action`) on what is there while a request is handled,
`AnuDB.Serving`. One field of it is no variable of the code: `failed` records that something went
wrong – a call reported an error, or something was thrown – whatever the reply says of it.
-/

namespace AnuDB

open Effect

/-! ### The state -/

/-- The topic of replies, up to the id of the request. -/
def ANUDB_RESPONSE_TOPIC : Bytes := Bytes.ofText "anudb/response/"

/-- The pointers of a server, by name. -/
abbrev CollMap : Type := Std.ExtTreeMap Bytes (Option Object) compare

/-- **A server between requests.** -/
structure Server where
  /-- The database. -/
  objects : Objects
  /-- Its engine. -/
  engine : StorageEngine
  /-- The pointers to collection objects. -/
  collMap_ : CollMap
  /-- What paths hold. -/
  files : Files

/-- **A request that is delivered**, and what its handling meets. -/
structure Delivery where
  /-- The payload. -/
  payload : Bytes
  /-- What RocksDB refuses. -/
  refusals : Stream' (Option Bytes)
  /-- What an id is generated from. -/
  entropy : Entropy
  /-- What the operating system answers an export. -/
  os : Os
  /-- Whether NNG takes a response, in the end. -/
  taken : Stream' Bool

/-- What is there while a request is handled. -/
structure Serving extends Server where
  /-- What RocksDB will refuse. -/
  refusals : Stream' (Option Bytes)
  /-- Whether NNG will take the responses to come. -/
  taken : Stream' Bool
  /-- Where the reply is going to. -/
  requestid : Bytes
  /-- The responses sent so far, with their topics. -/
  published : List (Bytes × Bytes)
  /-- The reply. -/
  resp : Json
  /-- Whether something went wrong. -/
  failed : Bool

/-- What is there after calls to the engine. -/
def Serving.after (s : Serving) (w : World) : Serving :=
  { s with engine := w.engine, refusals := w.refusals }

/-- What a handler does. -/
abbrev Service (α : Type) : Type := Action Serving Exn α

namespace Json

/-- `std::string s = j[field]`. -/
def stringAt (j : Json) (field : Bytes) : Except Exn Bytes := do
  (← j.index field).getString

/-- `j[field]` as a string if it is there, and the empty string if not. -/
def stringIfAny (j : Json) (field : Bytes) : Except Exn Bytes :=
  if j.contains field then j.stringAt field else .ok []

/-- `type_error::create(302, ...)`: a value read as a number. -/
def notANumber (j : Json) : Exn :=
  .exception (Bytes.ofText "[json.exception.type_error.302] type must be number, but is " ++
    j.typeName)

/-- The double, cut down to an integer; `static_cast` is only defined where that is in range. -/
def truncated (bits : UInt64) : Except Exn UInt32 :=
  let whole := (Binary64.scaled bits).tdiv (2 ^ 1074)
  if Binary64.Finite bits ∧ 0 ≤ whole ∧ whole < 2 ^ 32 then .ok (UInt32.ofInt whole)
  else .error (.undefined .conversion)

/-- `j.get<uint32_t>()`. -/
def getUInt32 : Json → Except Exn UInt32
  | integer i => .ok (UInt32.ofInt i)
  | boolean b => .ok (if b then 1 else 0)
  | float bits => truncated bits
  | j => .error j.notANumber

end Json

/-- The names, with a comma after each. -/
def commaList (names : List Bytes) : Bytes := (names.map fun name => name ++ Bytes.ofText ",").flatten

namespace Service

/-! ### What handlers are made of -/

/-- Calls to the engine, made. -/
def engine {α : Type} (p : Engine α) : Service α := fun s =>
  let (outcome, w) := p.run (.refusing s.engine s.refusals)
  (outcome, s.after w)

/-- A method of the database, called. -/
def database {α : Type} (method : Objects → Engine (α × Objects)) : Service α := do
  let s ← Action.get
  let (a, objects) ← engine (method s.objects)
  Action.modify fun s => { s with objects }
  return a

/-- Something went right or wrong. -/
def report (ok : Bool) : Service Unit :=
  Action.modify fun s => { s with failed := s.failed || !ok }

/-- `resp[field] = value`. -/
def set (field : Bytes) (value : Json) : Service Unit := fun s =>
  match s.resp.setMember field value with
  | .ok resp => (.ret (), { s with resp })
  | .error e => (.raise e, s)

/-- Members of the reply that are texts, set one after the other. -/
def answer : List (Bytes × Bytes) → Service Unit
  | [] => pure ()
  | (field, text) :: rest => do
    set field (.string text)
    answer rest

/-- The member of the reply that says how it went. -/
def status : Bytes := Bytes.ofText "status"

/-- The member of the reply that says it in words. -/
def message : Bytes := Bytes.ofText "message"

/-- The status of a request that has been carried out. -/
def success : Bytes := Bytes.ofText "success"

/-- The status of a request that has not. -/
def error : Bytes := Bytes.ofText "error"

/-- `catch (const std::exception& e)`, with what the message begins with. -/
def catching (heading : Bytes) (x : Service Unit) : Service Unit :=
  x.tryCatch fun
    | .exception what => do
      report false
      answer [(status, error), (message, heading ++ what)]
    | .undefined u => Action.raise (.undefined u)

/-- `send_response`: what NNG does not take is not sent. -/
def send_response (response_topic payload : Bytes) : Service Unit :=
  Action.modify fun s => { s with
    taken := s.taken.tail
    published :=
      if s.taken.head then s.published ++ [(Collection.cString response_topic, payload)]
      else s.published }

/-! ### Collections -/

/-- `collMap_[name] = pointer`. -/
def keep (name : Bytes) (pointer : Option Object) : Service Unit :=
  Action.modify fun s => { s with collMap_ := s.collMap_.insert name pointer }

/-- `collMap_.erase(name)`. -/
def forgetPointer (name : Bytes) : Service Unit :=
  Action.modify fun s => { s with collMap_ := s.collMap_.erase name }

/-- What the handlers on a collection do first: whether there is a pointer to it, in the end. -/
def lookup (name : Bytes) : Service Bool := do
  let s ← Action.get
  if name ∈ s.collMap_ then return true
  else
    match ← database fun o => o.getCollection name with
    | some p => do
      keep name (some p)
      return true
    | none => return false

/-- `collMap_[name]->`: the pointer is used, whatever it points to. -/
def collection (name : Bytes) : Service Collection := do
  let s ← Action.get
  match s.collMap_[name]?.join with
  | none => Action.raise (.undefined .nullCollection)
  | some p =>
    if s.objects.find name = some p then return p.collection
    else Action.raise (.undefined .danglingCollection)

/-- **The handlers on a collection** begin alike. -/
def onCollection (req : Json) (body : Bytes → Service Unit) : Service Unit :=
  catching (Bytes.ofText "Exception: ") do
    let collectionName ← Action.ofExcept (req.stringAt (Bytes.ofText "collection_name"))
    if ← lookup collectionName then body collectionName
    else do
      report false
      answer [(status, error),
        (message, Bytes.ofText "Collection :" ++ collectionName ++ Bytes.ofText " is not found")]

/-- A call that reports a status: the reply where it is OK, and the status of the reply where it
is not. -/
def conclude (result : Status) (done : List (Bytes × Bytes)) (failure : Bytes) : Service Unit := do
  report result.ok
  if result.ok then answer ((status, success) :: done)
  else answer [(status, failure), (message, result.msg)]

/-! ### The handlers -/

section Handlers

variable (text : JsonText) (codec : Codec) (d : Delivery) (req : Json)

/-- `handle_create_collection`. -/
def handle_create_collection : Service Unit :=
  catching (Bytes.ofText "Exception: ") do
    let collectionName ← Action.ofExcept (req.stringAt (Bytes.ofText "collection_name"))
    let result ← database fun o => o.createCollection collectionName
    report result.ok
    if result.ok then
      let pointer ← database fun o => o.getCollection collectionName
      keep collectionName pointer
      answer [(status, success),
        (message, collectionName ++ Bytes.ofText " collection created successfully in AnuDB.")]
    else answer [(status, Bytes.ofText "error while creating collection"), (message, result.msg)]

/-- `handle_delete_collection`. -/
def handle_delete_collection : Service Unit :=
  catching (Bytes.ofText "Exception: ") do
    let collectionName ← Action.ofExcept (req.stringAt (Bytes.ofText "collection_name"))
    let result ← database fun o => o.dropCollection collectionName
    report result.ok
    if result.ok then
      forgetPointer collectionName
      answer [(status, success),
        (message, collectionName ++ Bytes.ofText " collection deleted successfully in AnuDB.")]
    else answer [(status, Bytes.ofText "error while deleting collection"), (message, result.msg)]

/-- `handle_create_document`. -/
def handle_create_document : Service Unit :=
  onCollection req fun collectionName => do
    let docId ← Action.ofExcept (req.stringIfAny (Bytes.ofText "document_id"))
    let data ← Action.ofExcept (req.index (Bytes.ofText "content"))
    let c ← collection collectionName
    let (result, doc) ← engine (c.createDocument codec d.entropy ⟨docId, data⟩)
    conclude result
      [(Bytes.ofText "docId", doc.id_),
        (message, Bytes.ofText "Document added in collection " ++ collectionName)]
      (Bytes.ofText "error while adding document in collection " ++ collectionName)

/-- `handle_get_collections`. -/
def handle_get_collections : Service Unit := do
  let names ← engine Engine.getCollectionNames
  set (Bytes.ofText "Collections") (.string (commaList names))

/-- `Collection::exportAllToJsonAsync` and `waitForExportOperation`: the thread only logs the
status, and an exception in it ends the process. -/
def exportAllToJsonAsync (c : Collection) (exportPath : Bytes) : Service Status := do
  let s ← Action.get
  let (result, files) := s.engine.exportAllToJson text codec d.os s.files c.name_ exportPath
  Action.modify fun s => { s with files }
  match result with
  | .error _ => Action.raise (.undefined .terminate)
  | .ok result => do
    report result.ok
    return .OK

/-- `handle_export_collection`. -/
def handle_export_collection : Service Unit :=
  onCollection req fun collectionName => do
    let destDir ← Action.ofExcept (req.stringAt (Bytes.ofText "dest_dir"))
    let c ← collection collectionName
    let result ← exportAllToJsonAsync text codec d c destDir
    conclude result
      [(message, Bytes.ofText "Collection: " ++ collectionName ++
        Bytes.ofText " exported successfully to " ++ destDir)] error

/-- `handle_get_indexes`. -/
def handle_get_indexes : Service Unit :=
  onCollection req fun collectionName => do
    let c ← collection collectionName
    let indexes ← engine c.getIndex
    answer [(Bytes.ofText "collection", collectionName),
      (Bytes.ofText "indexList", commaList indexes)]

/-- The loop of `handle_read_document` over what its cursor walks. -/
def sendEntries (response_topic : Bytes) : List (Bytes × Bytes) → Service Unit
  | [] => pure ()
  | (_, value) :: entries => do
    let doc ← Action.ofExcept (Document.from_msgpack codec value)
    let payload ← Action.ofExcept ((text.dump doc.data_).mapError Exn.exception)
    send_response response_topic payload
    sendEntries response_topic entries

/-- How many documents `handle_read_document` reads at most. -/
def readLimit : Except Exn UInt32 :=
  if req.contains (Bytes.ofText "limit") then do (← req.index (Bytes.ofText "limit")).getUInt32
  else .ok (UInt32.ofNat (2 ^ 32 - 1))

/-- `handle_read_document`: the data of one document becomes the reply. -/
def handle_read_document (response_topic : Bytes) : Service Unit :=
  onCollection req fun collectionName =>
    if req.contains (Bytes.ofText "document_id") then do
      let docId ← Action.ofExcept (req.stringAt (Bytes.ofText "document_id"))
      let c ← collection collectionName
      match ← engine (c.readDocument codec docId) with
      | .error result => do
        report false
        answer [(status, Bytes.ofText "failed to read document"), (message, result.msg)]
      | .ok doc => Action.modify fun s => { s with resp := doc.data_ }
    else do
      let limit ← Action.ofExcept (readLimit req)
      let c ← collection collectionName
      let entries ← engine (Engine.cursor c.name_ none)
      sendEntries text codec response_topic (entries.take limit.toNat)

/-- `handle_delete_document`: without an id, nothing is done and nothing is said. -/
def handle_delete_document : Service Unit :=
  onCollection req fun collectionName =>
    if req.contains (Bytes.ofText "document_id") then do
      let docId ← Action.ofExcept (req.stringAt (Bytes.ofText "document_id"))
      let c ← collection collectionName
      let result ← engine (c.deleteDocument codec docId)
      conclude result
        [(Bytes.ofText "docId", docId),
          (message, Bytes.ofText "Document deleted from collection " ++ collectionName)]
        (Bytes.ofText "error while deleting document in collection " ++ collectionName)
    else pure ()

/-- `handle_create_index`. -/
def handle_create_index : Service Unit :=
  onCollection req fun collectionName => do
    let field ← Action.ofExcept (req.stringAt (Bytes.ofText "field"))
    let c ← collection collectionName
    let result ← engine (c.createIndex codec none field)
    conclude result [(message, Bytes.ofText "Index created on field name: " ++ field)]
      (Bytes.ofText "error while creating index in collection " ++ collectionName)

/-- `handle_delete_index`: what it calls is `createIndex`. -/
def handle_delete_index : Service Unit :=
  onCollection req fun collectionName => do
    let field ← Action.ofExcept (req.stringAt (Bytes.ofText "field"))
    let c ← collection collectionName
    let result ← engine (c.createIndex codec none field)
    conclude result [(message, Bytes.ofText "Index deleted on field name: " ++ field)]
      (Bytes.ofText "error while deleting index in collection " ++ collectionName)

/-- What `handle_find_documents` does with a document a query has found. -/
def sendDocument (response_topic : Bytes) (c : Collection) (docId : Bytes) : Service Unit := do
  match ← engine (c.readDocument codec docId) with
  | .error _ => report false
  | .ok doc => do
    let payload ← Action.ofExcept ((text.dump doc.data_).mapError Exn.exception)
    send_response response_topic payload

/-- The same for one document after the other. -/
def sendDocuments (response_topic : Bytes) (c : Collection) : List Bytes → Service Unit
  | [] => pure ()
  | docId :: docIds => do
    sendDocument text codec response_topic c docId
    sendDocuments response_topic c docIds

/-- `handle_find_documents`. -/
def handle_find_documents (response_topic : Bytes) : Service Unit :=
  onCollection req fun collectionName => do
    let _ ← Action.ofExcept (req.stringAt (Bytes.ofText "request_id"))
    let query ← Action.ofExcept (req.index (Bytes.ofText "query"))
    let c ← collection collectionName
    let s ← Action.get
    let docIds ← Action.ofExcept (c.findDocument codec s.engine query)
    report (c.findReports codec s.engine query)
    sendDocuments text codec response_topic c docIds

end Handlers

end Service

/-! ### The request -/

/-- The commands. -/
inductive Command where
  | create_collection | delete_collection | get_collections | create_document | delete_document
  | read_document | create_index | delete_index | get_indexes | find_documents | export_collection
  deriving DecidableEq

namespace Command

/-- The text of a command. -/
def text : Command → Bytes
  | create_collection => Bytes.ofText "create_collection"
  | delete_collection => Bytes.ofText "delete_collection"
  | get_collections => Bytes.ofText "get_collections"
  | create_document => Bytes.ofText "create_document"
  | delete_document => Bytes.ofText "delete_document"
  | read_document => Bytes.ofText "read_document"
  | create_index => Bytes.ofText "create_index"
  | delete_index => Bytes.ofText "delete_index"
  | get_indexes => Bytes.ofText "get_indexes"
  | find_documents => Bytes.ofText "find_documents"
  | export_collection => Bytes.ofText "export_collection"

/-- The commands, in the order they are tried in. -/
def all : List Command :=
  [create_collection, delete_collection, get_collections, create_document, delete_document,
    read_document, create_index, delete_index, get_indexes, find_documents, export_collection]

/-- The command of a text, where it is one. -/
def ofText? (cmd : Bytes) : Option Command := all.find? fun command => command.text = cmd

/-- A command, handled: two of them have their success set afterwards. -/
def handle (text : JsonText) (codec : Codec) (d : Delivery) (req : Json)
    (response_topic : Bytes) : Command → Service Unit
  | create_collection => Service.handle_create_collection req
  | delete_collection => Service.handle_delete_collection req
  | get_collections => Service.handle_get_collections
  | create_document => Service.handle_create_document codec d req
  | delete_document => Service.handle_delete_document codec req
  | read_document => do
    Service.handle_read_document text codec req response_topic
    Service.set Service.status (.string Service.success)
  | create_index => Service.handle_create_index codec req
  | delete_index => Service.handle_delete_index codec req
  | get_indexes => Service.handle_get_indexes req
  | find_documents => do
    Service.handle_find_documents text codec req response_topic
    Service.set Service.status (.string Service.success)
  | export_collection => Service.handle_export_collection text codec d req

end Command

namespace Service

variable (text : JsonText) (codec : Codec) (d : Delivery)

/-- `wrk->requestid = new std::string(topic)`. -/
def route (topic : Bytes) : Service Unit := Action.modify fun s => { s with requestid := topic }

/-- A request that has been parsed. -/
def dispatch (req : Json) : Service Unit := do
  let cmd ← Action.ofExcept (req.stringAt (Bytes.ofText "command"))
  let req_id ← Action.ofExcept (req.stringAt (Bytes.ofText "request_id"))
  route (ANUDB_RESPONSE_TOPIC ++ req_id)
  match Command.ofText? cmd with
  | some command => command.handle text codec d req (ANUDB_RESPONSE_TOPIC ++ req_id)
  | none => do
    report false
    answer [(status, error), (message, Bytes.ofText "Unknown command: " ++ cmd)]

/-- **`handle_request`.** -/
def handle_request : Service Bytes := do
  route ANUDB_RESPONSE_TOPIC
  catching (Bytes.ofText "Exception :") do
    let req ← Action.ofExcept ((text.parse d.payload).mapError Exn.exception)
    dispatch text codec d req
  let s ← Action.get
  Action.ofExcept ((text.dump s.resp).mapError Exn.exception)

end Service

namespace Server

/-- A server that has been started on an engine. -/
def started (e : StorageEngine) : Server := ⟨.new true, e, ∅, ∅⟩

/-- What is there when a request is delivered. -/
def serving (s : Server) (d : Delivery) : Serving :=
  { s with refusals := d.refusals, taken := d.taken, requestid := [], published := []
           resp := .null, failed := false }

/-- **A request, handled**: how that ends, and what is there then. -/
def serve (text : JsonText) (codec : Codec) (s : Server) (d : Delivery) :
    Outcome Exn Bytes × Serving :=
  (Service.handle_request text codec d).run (s.serving d)

/-- **A step of a server**: a request is handled, and that does not end in undefined behaviour. -/
def Step (text : JsonText) (codec : Codec) (s : Server) (d : Delivery) (s' : Server) : Prop :=
  (∀ u, (s.serve text codec d).1 ≠ .raise (.undefined u)) ∧
    s' = (s.serve text codec d).2.toServer

/-- **The states a server comes to**, that was started on an open engine, whatever is in it. -/
def Reachable (text : JsonText) (codec : Codec) (s : Server) : Prop :=
  ∃ e history, e.db_ = .opened ∧ History.Run (Step text codec) (started e) history s

end Server

end AnuDB
