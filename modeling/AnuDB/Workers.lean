import AnuDB.Requests
import Mathlib.Data.List.TakeWhile

/-!
# Are replies routed to who asked?

Requests are received by workers. A worker has a record of its own, `AnuDB.Work`, and its callback,
`AnuDB.client_cb`, goes from one state to the next: it receives, handles what it has received,
sends the reply, and receives again. Anything may fail in between, and then it receives again,
with what it has not sent left in the record. The records are allocated raw, so two of their
pointers begin as they may.

What a worker does is a list of events (`AnuDB.WorkEvent`), and each receipt begins a round
(`AnuDB.rounds`). Whatever the workers do and in whatever order, in every round there is at most
one reply, it is what was made of the request of that round, and if nothing fails there is one
(`AnuDB.orderly`). It goes to the topic of the request, unless that is not found out: a request
without a command is answered before its id is read, and a topic ends at its first NUL
(`AnuDB.JsonText.Addressed`).
-/

namespace AnuDB

open Effect

/-! ### Where a reply goes -/

namespace Service

variable {α : Type}

/-- The reply goes to the topic. -/
abbrev Routed (topic : Bytes) : Serving → Prop := fun s => s.requestid = topic

section Keeps

variable {topic : Bytes}

theorem keeps_modify {f : Serving → Serving} (h : ∀ s, (f s).requestid = s.requestid) :
    (Action.modify f : Service Unit).Keeps (Routed topic) :=
  Action.Triple.modify fun s hs => (h s).trans hs

theorem keeps_engine (p : Engine α) : (engine p).Keeps (Routed topic) :=
  triple_engine (fun _ _ _ hs _ => hs) fun _ _ _ hs _ => hs

theorem keeps_database (method : Objects → Engine (α × Objects)) :
    (database method).Keeps (Routed topic) :=
  triple_database (fun _ _ _ _ hs _ => hs) fun _ _ _ hs _ => hs

theorem keeps_ofExcept_bind {β : Type} {x : Except Exn α} {f : α → Service β}
    (h : ∀ a, (f a).Keeps (Routed topic)) : (Action.ofExcept x >>= f).Keeps (Routed topic) :=
  Action.Triple.ofExcept_bind (fun a _ => h a) fun _ _ _ hs => hs

theorem keeps_set (field : Bytes) (value : Json) : (set field value).Keeps (Routed topic) :=
  triple_set (fun _ _ hs _ => hs) fun _ _ hs _ => hs

theorem keeps_answer (fields : List (Bytes × Bytes)) : (answer fields).Keeps (Routed topic) := by
  induction fields with
  | nil => exact Action.Triple.pure fun _ hs => hs
  | cons x fields ih => exact Action.Triple.bind (keeps_set _ _) fun _ => ih

theorem keeps_complain (fields : List (Bytes × Bytes)) :
    (do report false; answer fields : Service Unit).Keeps (Routed topic) :=
  Action.Triple.bind (keeps_modify fun _ => rfl) fun _ => keeps_answer fields

theorem keeps_conclude (result : Status) (done : List (Bytes × Bytes)) (failure : Bytes) :
    (conclude result done failure).Keeps (Routed topic) := by
  refine Action.Triple.bind (keeps_modify fun _ => rfl) fun _ => ?_
  split_ifs
  · exact keeps_answer _
  · exact keeps_answer _

theorem keeps_catching {heading : Bytes} {x : Service Unit} (h : x.Keeps (Routed topic)) :
    (catching heading x).Keeps (Routed topic) :=
  triple_catching h (fun _ => keeps_complain _) fun _ _ hs => hs

theorem keeps_lookup (name : Bytes) : (lookup name).Keeps (Routed topic) := by
  refine Action.Triple.get_bind fun s hs => ?_
  split_ifs
  · exact Action.Triple.pure fun s' hs' => hs' ▸ hs
  · refine Action.Triple.bind (Q := fun _ => Routed topic) ?_ fun found => ?_
    · exact (keeps_database _).mono (fun s' hs' => hs' ▸ hs) (fun _ _ h => h) fun _ _ h => h
    · cases found with
      | none => exact Action.Triple.pure fun _ h => h
      | some p =>
        exact Action.Triple.bind (keeps_modify fun _ => rfl) fun _ => Action.Triple.pure fun _ h => h

theorem keeps_collection (name : Bytes) : (collection name).Keeps (Routed topic) := by
  refine Action.Triple.get_bind fun s hs => ?_
  split
  · exact Action.Triple.raise fun s' hs' => hs' ▸ hs
  · split_ifs
    · exact Action.Triple.pure fun s' hs' => hs' ▸ hs
    · exact Action.Triple.raise fun s' hs' => hs' ▸ hs

theorem keeps_onCollection {req : Json} {body : Bytes → Service Unit}
    (hbody : ∀ name, (body name).Keeps (Routed topic)) :
    (onCollection req body).Keeps (Routed topic) := by
  refine keeps_catching (keeps_ofExcept_bind fun name => ?_)
  refine Action.Triple.bind (keeps_lookup name) fun found => ?_
  cases found with
  | true => exact hbody name
  | false => exact keeps_complain _

variable {text : JsonText} {codec : Codec} {d : Delivery} {req : Json} {t : Bytes}

theorem keeps_sendEntries (entries : List (Bytes × Bytes)) :
    (sendEntries text codec t entries).Keeps (Routed topic) := by
  induction entries with
  | nil => exact Action.Triple.pure fun _ hs => hs
  | cons x entries ih =>
    refine keeps_ofExcept_bind fun doc => keeps_ofExcept_bind fun payload => ?_
    exact Action.Triple.bind (keeps_modify fun _ => rfl) fun _ => ih

theorem keeps_sendDocuments (c : Collection) (docIds : List Bytes) :
    (sendDocuments text codec t c docIds).Keeps (Routed topic) := by
  induction docIds with
  | nil => exact Action.Triple.pure fun _ hs => hs
  | cons docId docIds ih =>
    refine Action.Triple.bind (Q := fun _ => Routed topic) ?_ fun _ => ih
    refine Action.Triple.bind (keeps_engine _) fun found => ?_
    cases found with
    | error result => exact keeps_modify fun _ => rfl
    | ok doc => exact keeps_ofExcept_bind fun payload => keeps_modify fun _ => rfl

/-- A call on a collection, and what is answered. -/
theorem keeps_call {name : Bytes} {p : Collection → Engine α} {k : α → Service Unit}
    (h : ∀ a, (k a).Keeps (Routed topic)) :
    (do let c ← collection name; let a ← engine (p c); k a : Service Unit).Keeps (Routed topic) :=
  Action.Triple.bind (keeps_collection name) fun _ => Action.Triple.bind (keeps_engine _) h

/-- **No command changes where the reply goes.** -/
theorem keeps_handle (command : Command) :
    (command.handle text codec d req t).Keeps (Routed topic) := by
  cases command with
  | create_collection =>
    refine keeps_catching (keeps_ofExcept_bind fun name => ?_)
    refine Action.Triple.bind (keeps_database _) fun result => ?_
    refine Action.Triple.bind (keeps_modify fun _ => rfl) fun _ => ?_
    split_ifs
    · refine Action.Triple.bind (keeps_database _) fun pointer => ?_
      exact Action.Triple.bind (keeps_modify fun _ => rfl) fun _ => keeps_answer _
    · exact keeps_answer _
  | delete_collection =>
    refine keeps_catching (keeps_ofExcept_bind fun name => ?_)
    refine Action.Triple.bind (keeps_database _) fun result => ?_
    refine Action.Triple.bind (keeps_modify fun _ => rfl) fun _ => ?_
    split_ifs
    · exact Action.Triple.bind (keeps_modify fun _ => rfl) fun _ => keeps_answer _
    · exact keeps_answer _
  | get_collections => exact Action.Triple.bind (keeps_engine _) fun names => keeps_set _ _
  | create_document =>
    refine keeps_onCollection fun name => keeps_ofExcept_bind fun docId => ?_
    exact keeps_ofExcept_bind fun data => keeps_call fun x => keeps_conclude _ _ _
  | delete_document =>
    refine keeps_onCollection fun name => ?_
    split_ifs
    · exact keeps_ofExcept_bind fun docId => keeps_call fun x => keeps_conclude _ _ _
    · exact Action.Triple.pure fun _ hs => hs
  | read_document =>
    refine Action.Triple.bind (Q := fun _ => Routed topic) ?_ fun _ => keeps_set _ _
    refine keeps_onCollection fun name => ?_
    split_ifs
    · refine keeps_ofExcept_bind fun docId => keeps_call fun found => ?_
      cases found with
      | error result => exact keeps_complain _
      | ok doc => exact keeps_modify fun _ => rfl
    · exact keeps_ofExcept_bind fun limit => keeps_call fun entries => keeps_sendEntries _
  | create_index =>
    refine keeps_onCollection fun name => keeps_ofExcept_bind fun field => ?_
    exact keeps_call fun x => keeps_conclude _ _ _
  | delete_index =>
    refine keeps_onCollection fun name => keeps_ofExcept_bind fun field => ?_
    exact keeps_call fun x => keeps_conclude _ _ _
  | get_indexes => exact keeps_onCollection fun name => keeps_call fun indexes => keeps_answer _
  | find_documents =>
    refine Action.Triple.bind (Q := fun _ => Routed topic) ?_ fun _ => keeps_set _ _
    refine keeps_onCollection fun name => keeps_ofExcept_bind fun _ => ?_
    refine keeps_ofExcept_bind fun query => Action.Triple.bind (keeps_collection name) fun c => ?_
    refine Action.Triple.get_bind fun s hs => ?_
    refine Action.Triple.ofExcept_bind (fun docIds _ => ?_) fun _ _ s' hs' => hs' ▸ hs
    refine Action.Triple.bind (Q := fun _ => Routed topic) (Action.Triple.modify ?_)
      fun _ => keeps_sendDocuments c docIds
    exact fun s' hs' => hs' ▸ hs
  | export_collection =>
    refine keeps_onCollection fun name => keeps_ofExcept_bind fun destDir => ?_
    refine Action.Triple.bind (keeps_collection name) fun c => ?_
    refine Action.Triple.bind (Q := fun _ => Routed topic) ?_ fun _ => keeps_conclude _ _ _
    refine Action.Triple.get_bind fun s hs => ?_
    refine Action.Triple.bind (Q := fun _ => Routed topic) (Action.Triple.modify ?_) fun _ => ?_
    · exact fun s' hs' => hs' ▸ hs
    · split
      · exact Action.Triple.raise fun _ hs => hs
      · exact Action.Triple.bind (keeps_modify fun _ => rfl) fun _ => Action.Triple.pure fun _ h => h

end Keeps

end Service

/-- **Where the reply to a request goes** is known from its payload. -/
theorem Server.requestid_of_serve {text : JsonText} {codec : Codec} {s : Server} {d : Delivery}
    {reply : Bytes} {s' : Serving} (h : s.serve text codec d = (.ret reply, s')) :
    s'.requestid = text.topic d.payload := by
  have hreply {x : Service Unit} (hx : x.Keeps (Service.Routed (text.topic d.payload))) :
      (Service.reply text x).Keeps (Service.Routed (text.topic d.payload)) := by
    refine Action.Triple.bind hx fun _ => Action.Triple.get_bind fun s hs => ?_
    intro s₁ hs₁
    rw [Action.run_ofExcept]
    rcases (text.dump s.resp).mapError Exn.exception with e | payload
    · exact Or.inr ⟨e, s₁, rfl, hs₁ ▸ hs⟩
    · exact Or.inl ⟨payload, s₁, rfl, hs₁ ▸ hs⟩
  rcases hasked : text.asked d.payload with complaint | ⟨command, req⟩
  · rw [serve_of_not_asked hasked] at h
    exact (hreply (Action.Triple.pure fun _ hs => hs)).of_run rfl h
  · rw [serve_of_asked hasked] at h
    exact (hreply (Service.keeps_catching (Service.keeps_handle command))).of_run rfl h

/-- What is replied is the text of what was put together. -/
theorem Service.dump_of_reply {text : JsonText} {x : Service Unit} {s s' : Serving} {reply : Bytes}
    (h : (Service.reply text x).run s = (.ret reply, s')) : text.dump s'.resp = .ok reply := by
  rw [Service.reply, Action.run_bind] at h
  rcases hx : x.run s with ⟨_ | exn | _, s₁⟩
  · rw [hx] at h
    have hdumped : (Outcome.ofExcept ((text.dump s₁.resp).mapError Exn.exception), s₁) =
        (.ret reply, s') := (Action.run_ofExcept _ s₁).symm.trans h
    obtain ⟨hreply, rfl⟩ := Prod.mk.inj hdumped
    rcases hdump : text.dump s₁.resp with what | payload
    · rw [hdump] at hreply
      cases hreply
    · rw [hdump] at hreply
      rw [Outcome.ret.inj hreply]
  · rw [hx] at h
    cases h
  · rw [hx] at h
    cases h

/-- Where no dump is empty, no reply is. -/
theorem Server.serve_ne_nil {text : JsonText} {codec : Codec} {s : Server} {d : Delivery}
    {s' : Serving} (hdump : ∀ j, text.dump j ≠ .ok []) : s.serve text codec d ≠ (.ret [], s') :=
  fun h => hdump _ (Service.dump_of_reply h)

/-! ### A worker -/

/-- The states of a worker. -/
inductive WorkState where
  | init | recv | wait | send
  deriving DecidableEq

/-- A pointer of a record. -/
inductive Slot where
  /-- It has not been set since the record was allocated. -/
  | raw : Slot
  /-- It is null. -/
  | null : Slot
  /-- It is to this text. -/
  | text (s : Bytes) : Slot
  deriving DecidableEq

/-- **The record of a worker**, as far as its callback reads it. -/
structure Work where
  /-- Its state. -/
  state : WorkState
  /-- The message that has been received: its payload. -/
  msg : Slot
  /-- The topic the reply goes to. -/
  requestid : Slot
  /-- The reply that is to be sent. -/
  reply : Slot

/-- `alloc_work`: memory that is allocated raw, with the reply and the state set. -/
def alloc_work : Work := ⟨.init, .raw, .raw, .null⟩

/-- **What a callback meets.** -/
structure Callback where
  /-- `nng_aio_result`: whether what was waited for has succeeded. -/
  result : Bool
  /-- The payload of the message that has been received. -/
  payload : Bytes
  /-- What the handling of a request meets, but for the payload. -/
  delivery : Delivery
  /-- `nng_mqtt_msg_alloc`: whether there is a message to send. -/
  allocated : Bool

/-- **What a worker does.** -/
inductive WorkEvent where
  /-- It begins to receive. -/
  | listening : WorkEvent
  /-- Receiving has failed. -/
  | missed : WorkEvent
  /-- A message has been received. -/
  | received (payload : Bytes) : WorkEvent
  /-- The message is empty. -/
  | skipped : WorkEvent
  /-- The reply is empty. -/
  | dropped : WorkEvent
  /-- The request has been handled, and there is a reply. -/
  | handled (reply : Bytes) : WorkEvent
  /-- The sleep before sending, the message to send, or sending it has failed. -/
  | failed : WorkEvent
  /-- The reply is sent to a topic. -/
  | published (topic reply : Bytes) : WorkEvent
  /-- The reply has been sent. -/
  | sent : WorkEvent
  deriving DecidableEq

/-- **`client_cb`**: what the worker does, and its record and the server then. There is nothing
where a request is handled and that does not return, or a pointer is used that points to nothing. -/
def client_cb (text : JsonText) (codec : Codec) (work : Work) (s : Server) (c : Callback) :
    Option (WorkEvent × Work × Server) :=
  match work.state with
  | .init => some (.listening, { work with state := .recv }, s)
  | .recv =>
    if c.result then
      some (.received c.payload, { work with msg := .text c.payload, state := .wait }, s)
    else some (.missed, { work with state := .recv }, s)
  | .wait =>
    match work.msg with
    | .text payload =>
      if payload = [] then some (.skipped, { work with msg := .null, state := .recv }, s)
      else
        match s.serve text codec { c.delivery with payload } with
        | (.ret ret, s') =>
          let requestid := Slot.text s'.requestid
          if ret ≠ [] then
            some (.handled ret, ⟨.send, .null, requestid, .text ret⟩, s'.toServer)
          else some (.dropped, { work with msg := .null, requestid, state := .recv }, s'.toServer)
        | _ => none
    | _ => none
  | .send =>
    if c.result then
      match work.reply with
      | .null => some (.sent, { work with state := .recv }, s)
      | .text reply =>
        if c.allocated then
          match work.requestid with
          | .text topic => some (.published (Collection.cString topic) reply,
              { work with reply := .null, requestid := .null }, s)
          | _ => none
        else some (.failed, { work with state := .recv }, s)
      | .raw => none
    else some (.failed, { work with state := .recv }, s)

/-! ### Workers on one server -/

/-- A server and its workers. -/
structure Workers (ι : Type) where
  /-- The server: requests are handled one after the other. -/
  server : Server
  /-- The records of the workers. -/
  works : ι → Work

namespace Workers

variable {ι : Type} [DecidableEq ι]

/-- The workers have been allocated. -/
def started (s : Server) : Workers ι := ⟨s, fun _ => alloc_work⟩

/-- **A step**: the callback of a worker is run. -/
def Step (text : JsonText) (codec : Codec) (w : Workers ι) (x : ι × WorkEvent) (w' : Workers ι) :
    Prop :=
  ∃ c work s, client_cb text codec (w.works x.1) w.server c = some (x.2, work, s) ∧
    w' = ⟨s, Function.update w.works x.1 work⟩

end Workers

/-! ### Rounds -/

/-- **A round of a worker**: what it does from a receipt to the next. -/
structure Round where
  /-- What has been received; before the first receipt, there is nothing. -/
  payload : Option Bytes
  /-- What the worker has done since. -/
  events : List WorkEvent

/-- What an event adds to the rounds, of which the last comes first. -/
def Round.extend : List Round → WorkEvent → List Round
  | rounds, .received payload => ⟨some payload, []⟩ :: rounds
  | r :: rounds, e => { r with events := r.events ++ [e] } :: rounds
  | [], _ => []

/-- **The rounds of a worker**, the last one first. -/
def rounds (events : List WorkEvent) : List Round := events.foldl Round.extend [⟨none, []⟩]

/-- What a worker does in a history. -/
def doneBy {ι : Type} [DecidableEq ι] (i : ι) (history : List (ι × WorkEvent)) : List WorkEvent :=
  (history.filter fun x => x.1 = i).map Prod.snd

/-- The replies an event publishes, with their topics. -/
def WorkEvent.publications : WorkEvent → List (Bytes × Bytes)
  | .published topic reply => [(topic, reply)]
  | _ => []

/-- The replies that are published in a round. -/
def Round.published (r : Round) : List (Bytes × Bytes) := r.events.flatMap WorkEvent.publications

namespace JsonText

variable (text : JsonText) (payload : Bytes)

/-- **The topic of a request**: its id comes after the prefix, if there is one. -/
def replyTopic : Bytes :=
  match text.parse payload with
  | .ok req =>
    match req.stringAt (Bytes.ofText "request_id") with
    | .ok req_id => ANUDB_RESPONSE_TOPIC ++ req_id
    | .error _ => ANUDB_RESPONSE_TOPIC
  | .error _ => ANUDB_RESPONSE_TOPIC

/-- **Where the topic is found out**: a request with an id, unless it is empty, has a command as
well, and there is no NUL in the id. -/
def Addressed : Prop :=
  ∀ req req_id, text.parse payload = .ok req →
    req.stringAt (Bytes.ofText "request_id") = .ok req_id → req_id ≠ [] →
      (∃ cmd, req.stringAt (Bytes.ofText "command") = .ok cmd) ∧ 0 ∉ req_id

end JsonText

/-- **A reply to a payload**: a server has handled it like that, in a state that is reached. -/
def Replies (text : JsonText) (codec : Codec) (payload reply : Bytes) : Prop :=
  ∃ (s : Server) (d : Delivery), s.Reachable text codec ∧ d.payload = payload ∧
    (s.serve text codec d).1 = .ret reply

/-- **What is published in a round** is one reply at most: the one that was made in the round, of
what was received in it, and it goes to the topic of that. -/
structure Round.Routed (text : JsonText) (codec : Codec) (r : Round) : Prop where
  /-- A reply is the one to what was received, and goes to its topic. -/
  routed : ∀ x ∈ r.published, .handled x.2 ∈ r.events ∧ ∃ payload, r.payload = some payload ∧
    Replies text codec payload x.2 ∧ x.1 = text.replyTopic payload
  /-- There is one at most. -/
  once : r.published.length ≤ 1

/-- **What has been received in a round has been answered**, unless it was empty or something
failed. -/
def Round.Answered (r : Round) : Prop :=
  ∀ payload, r.payload = some payload → payload ≠ [] → .failed ∉ r.events → r.published.length = 1

/-- How many callbacks a worker may need until it receives again. -/
def Work.rank (work : Work) : ℕ :=
  match work.state with
  | .init | .recv => 0
  | .send => if work.reply = .null then 1 else 2
  | .wait => 3

/-- **Replies are routed to who asked**, after a history. -/
structure Orderly {ι : Type} [DecidableEq ι] (text : JsonText) (codec : Codec)
    (history : List (ι × WorkEvent)) (w : Workers ι) : Prop where
  /-- In every round of a worker, there is one reply at most, and it is that to its request. -/
  routed : ∀ i, ∀ r ∈ rounds (doneBy i history), r.Routed text codec
  /-- A round that another one follows has been answered. -/
  answered : ∀ i, ∀ r ∈ (rounds (doneBy i history)).tail, r.Answered
  /-- The last round has been answered when the worker receives again. -/
  settled : ∀ i, (w.works i).state = .recv → ∀ r ∈ rounds (doneBy i history), r.Answered
  /-- A worker that leaves `send` receives. -/
  returns : ∀ i e w', w.Step text codec (i, e) w' → (w.works i).state = .send →
    (w'.works i).state = .send ∨ (w'.works i).state = .recv
  /-- Each callback of a worker with a request brings it closer to that. -/
  closer : ∀ i e w', w.Step text codec (i, e) w' → 0 < (w.works i).rank →
    (w'.works i).rank < (w.works i).rank
  /-- A callback comes to nothing only where a request is handled, and that does not return. -/
  defined : ∀ i c, client_cb text codec (w.works i) w.server c = none →
    ∃ payload, (w.works i).msg = .text payload ∧ ∀ reply s',
      w.server.serve text codec { c.delivery with payload } ≠ (.ret reply, s')

/-! ### What a callback does -/

/-- **What a callback does**, case by case. -/
inductive Work.Does (text : JsonText) (codec : Codec) (work : Work) (s : Server) :
    WorkEvent → Work → Server → Prop
  | listening (h : work.state = .init) : Does text codec work s .listening { work with state := .recv } s
  | missed (h : work.state = .recv) : Does text codec work s .missed { work with state := .recv } s
  | received (payload : Bytes) (h : work.state = .recv) :
      Does text codec work s (.received payload) { work with msg := .text payload, state := .wait } s
  | skipped (h : work.state = .wait) (hmsg : work.msg = .text []) :
      Does text codec work s .skipped { work with msg := .null, state := .recv } s
  | handled (d : Delivery) (reply : Bytes) (s' : Serving) (h : work.state = .wait)
      (hmsg : work.msg = .text d.payload) (hpayload : d.payload ≠ [])
      (hserve : s.serve text codec d = (.ret reply, s')) :
      Does text codec work s (.handled reply) ⟨.send, .null, .text s'.requestid, .text reply⟩
        s'.toServer
  | dropped (d : Delivery) (s' : Serving) (h : work.state = .wait)
      (hserve : s.serve text codec d = (.ret [], s')) (requestid : Slot) :
      Does text codec work s .dropped { work with msg := .null, requestid, state := .recv }
        s'.toServer
  | failed (h : work.state = .send) : Does text codec work s .failed { work with state := .recv } s
  | published (topic reply : Bytes) (h : work.state = .send) (hreply : work.reply = .text reply)
      (hrequestid : work.requestid = .text topic) :
      Does text codec work s (.published (Collection.cString topic) reply)
        { work with reply := .null, requestid := .null } s
  | sent (h : work.state = .send) (hreply : work.reply = .null) :
      Does text codec work s .sent { work with state := .recv } s

section Callback

variable {text : JsonText} {codec : Codec} {work work' : Work} {s s' : Server} {c : Callback}
  {e : WorkEvent}

theorem does_of_client_cb (h : client_cb text codec work s c = some (e, work', s')) :
    work.Does text codec s e work' s' := by
  obtain ⟨state, msg, requestid, reply⟩ := work
  rw [client_cb] at h
  cases state with
  | init =>
    cases h
    exact .listening rfl
  | recv =>
    by_cases hresult : c.result = true
    · simp only [hresult, if_true] at h
      cases h
      exact .received _ rfl
    · simp only [hresult, Bool.false_eq_true, if_false] at h
      cases h
      exact .missed rfl
  | wait =>
    rcases msg with _ | _ | payload
    · cases h
    · cases h
    by_cases hpayload : payload = []
    · subst hpayload
      cases h
      exact .skipped rfl rfl
    simp only [hpayload, if_false] at h
    -- only a request that comes back leaves a worker
    rcases hserve : s.serve text codec { c.delivery with payload } with ⟨ret | exn | _, s₁⟩
    · simp only [hserve] at h
      by_cases hret : ret = []
      · subst hret
        cases h
        exact .dropped _ s₁ rfl hserve _
      · simp only [ne_eq, hret, not_false_eq_true, if_true] at h
        cases h
        exact .handled { c.delivery with payload } ret s₁ rfl rfl hpayload hserve
    · simp only [hserve] at h
      cases h
    · simp only [hserve] at h
      cases h
  | send =>
    by_cases hresult : c.result = true
    · simp only [hresult, if_true] at h
      -- where there is no reply any more it has been sent
      rcases reply with _ | _ | reply
      · cases h
      · cases h
        exact .sent rfl rfl
      by_cases hallocated : c.allocated = true
      · simp only [hallocated, if_true] at h
        rcases requestid with _ | _ | topic
        · cases h
        · cases h
        · cases h
          exact .published topic reply rfl rfl rfl
      · simp only [hallocated, Bool.false_eq_true, if_false] at h
        cases h
        exact .failed rfl
    · simp only [hresult, Bool.false_eq_true, if_false] at h
      cases h
      exact .failed rfl

namespace Work.Does

/-- A worker that leaves `send` receives. -/
theorem returns (h : work.Does text codec s e work' s') (hstate : work.state = .send) :
    work'.state = .send ∨ work'.state = .recv := by
  cases h with
  | handled => exact Or.inl rfl
  | published => exact Or.inl hstate
  | received payload hrecv => cases hstate.symm.trans hrecv
  | _ => exact Or.inr rfl

/-- A worker with a request comes closer to receiving. -/
theorem rank_lt (h : work.Does text codec s e work' s') (hrank : 0 < work.rank) :
    work'.rank < work.rank := by
  have hidle (hstate : work.state = .init ∨ work.state = .recv) : ¬0 < work.rank := by
    rcases hstate with hstate | hstate
    · simp [rank, hstate]
    · simp [rank, hstate]
  cases h with
  | listening hstate => exact absurd hrank (hidle (Or.inl hstate))
  | missed hstate => exact absurd hrank (hidle (Or.inr hstate))
  | received payload hstate => exact absurd hrank (hidle (Or.inr hstate))
  | skipped hstate => exact hrank
  | dropped d s' hstate => exact hrank
  | failed hstate => exact hrank
  | sent hstate hreply => exact hrank
  | handled d reply s' hstate =>
    have hbefore : work.rank = 3 := by rw [rank, hstate]
    have hafter : rank ⟨.send, .null, .text s'.requestid, .text reply⟩ = 2 := rfl
    omega
  | published topic reply hstate hreply =>
    have hbefore : work.rank = 2 := by simp [rank, hstate, hreply]
    have hafter : rank { work with reply := .null, requestid := .null } = 1 := by simp [rank, hstate]
    omega

/-- The server is in a state that is reached. -/
theorem reachable (h : work.Does text codec s e work' s') (hs : s.Reachable text codec) :
    s'.Reachable text codec := by
  have hserved {d : Delivery} {reply : Bytes} {s₁ : Serving}
      (hserve : s.serve text codec d = (.ret reply, s₁)) : s₁.toServer.Reachable text codec := by
    obtain ⟨e, history, he, hrun⟩ := hs
    have hstep : s.Step text codec d s₁.toServer := by
      refine ⟨fun u hu => ?_, by rw [hserve]⟩
      rw [hserve] at hu
      cases hu
    exact ⟨e, _, he, hrun.snoc hstep⟩
  cases h with
  | handled d reply s' hstate hmsg hpayload hserve => exact hserved hserve
  | dropped d s' hstate hserve => exact hserved hserve
  | _ => exact hs

end Work.Does

end Callback

/-! ### Topics -/

namespace JsonText

variable {text : JsonText} {payload : Bytes}

/-- **A topic that is found out is the one of the request.** -/
theorem Addressed.cString_topic (h : text.Addressed payload) :
    Collection.cString (text.topic payload) = text.replyTopic payload := by
  have hprefix : Collection.cString ANUDB_RESPONSE_TOPIC = ANUDB_RESPONSE_TOPIC := by decide
  rw [topic, fields, replyTopic]
  rcases hparse : text.parse payload with what | req
  · exact hprefix
  rcases hid : req.stringAt (Bytes.ofText "request_id") with exn | id
  · -- there is no id, whether there is a command or not
    rcases hcmd : req.stringAt (Bytes.ofText "command") with exn' | cmd
    · simp only [Except.mapError, ok_bind, hcmd, hid]
      exact hprefix
    · simp only [Except.mapError, ok_bind, hcmd, hid]
      exact hprefix
  by_cases hne : id = []
  · subst hne
    rcases hcmd : req.stringAt (Bytes.ofText "command") with exn' | cmd
    · simp only [Except.mapError, ok_bind, hcmd, hid]
      exact hprefix
    · simp only [Except.mapError, ok_bind, hcmd, hid]
      exact hprefix
  obtain ⟨⟨cmd, hcmd⟩, hnul⟩ := h req id hparse hid hne
  simp only [Except.mapError, ok_bind, hcmd, hid]
  show Collection.cString (ANUDB_RESPONSE_TOPIC ++ id) = _
  rw [Collection.cString, List.takeWhile_eq_self_iff]
  intro b hb
  rcases List.mem_append.mp hb with hb | hb
  · have hnone : (ANUDB_RESPONSE_TOPIC.all fun b => b ≠ 0) = true := by decide
    exact List.all_eq_true.mp hnone b hb
  · exact decide_eq_true fun hzero => hnul (hzero ▸ hb)

/-- A request with a command and an id is addressed, if there is no NUL in that. -/
theorem Addressed.of_fields {cmd req_id : Bytes}
    (h : (text.fields payload).toOption.map Prod.snd = some (cmd, req_id)) (hnul : 0 ∉ req_id) :
    text.Addressed payload := by
  intro req req_id' hparse hid hne
  rw [fields, hparse] at h
  simp only [Except.mapError, ok_bind, hid] at h
  rcases hcmd : req.stringAt (Bytes.ofText "command") with exn | cmd'
  · rw [hcmd] at h
    cases h
  · rw [hcmd] at h
    obtain ⟨rfl, rfl⟩ := Prod.mk.inj (Option.some.inj h)
    exact ⟨⟨_, rfl⟩, hnul⟩

theorem dump_standard_ne_nil (j : Json) : JsonText.standard.dump j ≠ .ok [] := by
  intro h
  change JsonFormat.dump none j = _ at h
  rw [JsonFormat.dump] at h
  split_ifs at h
  exact JsonFormat.write_ne_nil none j (Except.ok.inj h)

end JsonText

/-! ### Rounds, event by event -/

theorem rounds_concat (events : List WorkEvent) (e : WorkEvent) :
    rounds (events ++ [e]) = Round.extend (rounds events) e := by
  rw [rounds, List.foldl_append]
  rfl

section DoneBy

variable {ι : Type} [DecidableEq ι] {i j : ι} {e : WorkEvent}

theorem doneBy_concat_self (history : List (ι × WorkEvent)) :
    doneBy i (history ++ [(i, e)]) = doneBy i history ++ [e] := by
  simp [doneBy]

theorem doneBy_concat_of_ne (history : List (ι × WorkEvent)) (h : j ≠ i) :
    doneBy i (history ++ [(j, e)]) = doneBy i history := by
  simp [doneBy, h]

end DoneBy

/-! ### Every round is in order -/

/-- A round that is in order, and over. -/
def Round.Good (text : JsonText) (codec : Codec) (r : Round) : Prop :=
  r.Routed text codec ∧ r.Answered

namespace Round

variable {text : JsonText} {codec : Codec} {r : Round}

theorem published_concat (r : Round) (e : WorkEvent) :
    Round.published { r with events := r.events ++ [e] } = r.published ++ e.publications := by
  simp [published]

/-- A round nothing has been published in. -/
theorem Good.of_published_eq_nil (h : r.published = [])
    (hover : ∀ payload, r.payload = some payload → payload ≠ [] → .failed ∈ r.events) :
    r.Good text codec := by
  refine ⟨⟨fun x hx => ?_, by simp [h]⟩, fun payload hpayload hne hfailed => ?_⟩
  · rw [h] at hx
    cases hx
  · exact absurd (hover payload hpayload hne) hfailed

/-- A round in which the reply has been published. -/
theorem Good.of_published {payload reply : Bytes} (hpayload : r.payload = some payload)
    (hhandled : .handled reply ∈ r.events) (hreplies : AnuDB.Replies text codec payload reply)
    (h : r.published = [(text.replyTopic payload, reply)]) : r.Good text codec := by
  refine ⟨⟨fun x hx => ?_, by simp [h]⟩, fun _ _ _ _ => by simp [h]⟩
  rw [h, List.mem_singleton] at hx
  subst hx
  exact ⟨hhandled, payload, hpayload, hreplies, rfl⟩

/-- What is missed afterwards changes nothing. -/
theorem Good.missed (h : r.Good text codec) :
    Good text codec { r with events := r.events ++ [.missed] } := by
  have hpublished : Round.published { r with events := r.events ++ [.missed] } = r.published :=
    (published_concat r .missed).trans (List.append_nil _)
  refine ⟨⟨fun x hx => ?_, ?_⟩, fun payload hpayload hne hfailed => ?_⟩
  · rw [hpublished] at hx
    exact ⟨List.mem_append_left _ (h.1.routed x hx).1, (h.1.routed x hx).2⟩
  · rw [hpublished]
    exact h.1.once
  · rw [hpublished]
    exact h.2 payload hpayload hne fun hmem => hfailed (List.mem_append_left _ hmem)

end Round

/-- **What the record of a worker has to do with its last round.** -/
def Work.Fits (text : JsonText) (codec : Codec) (work : Work) (r : Round) : Prop :=
  match work.state with
  | .init => r = ⟨none, []⟩
  | .recv => r.Good text codec
  | .wait => ∃ payload, r = ⟨some payload, []⟩ ∧ work.msg = .text payload ∧ text.Addressed payload
  | .send => ∃ payload reply, r.payload = some payload ∧ Replies text codec payload reply ∧
      text.Addressed payload ∧
      (r.events = [.handled reply] ∧ work.reply = .text reply ∧
          work.requestid = .text (text.topic payload) ∨
        r.events = [.handled reply, .published (text.replyTopic payload) reply] ∧
          work.reply = .null)

section Fits

variable {text : JsonText} {codec : Codec} {work work' : Work} {s s' : Server} {r : Round}
  {e : WorkEvent}

/-- A round is in order all the time. -/
theorem Work.Fits.routed (h : work.Fits text codec r) : r.Routed text codec := by
  rw [Fits] at h
  rcases hstate : work.state with _ | _ | _ | _
  · rw [hstate] at h
    subst h
    exact (Round.Good.of_published_eq_nil rfl fun _ hpayload => by cases hpayload).1
  · rw [hstate] at h
    exact h.1
  · rw [hstate] at h
    obtain ⟨payload, rfl, -⟩ := h
    exact ⟨fun x hx => absurd hx List.not_mem_nil, Nat.zero_le 1⟩
  · rw [hstate] at h
    obtain ⟨payload, reply, hpayload, hreplies, -, ⟨hevents, -⟩ | ⟨hevents, -⟩⟩ := h
    · have hnone : r.published = [] := by rw [Round.published, hevents]; rfl
      refine ⟨fun x hx => ?_, by simp [hnone]⟩
      rw [hnone] at hx
      cases hx
    · have hone : r.published = [(text.replyTopic payload, reply)] := by
        rw [Round.published, hevents]
        rfl
      exact (Round.Good.of_published hpayload (by simp [hevents]) hreplies hone).1

/-- **What a callback does fits the round again**, or a round that begins. -/
theorem Work.Fits.next (h : work.Fits text codec r) (hdoes : work.Does text codec s e work' s')
    (hs : s.Reachable text codec) (hdump : ∀ j, text.dump j ≠ .ok [])
    (haddressed : ∀ payload, e = .received payload → text.Addressed payload) (rs : List Round) :
    ∃ r' rs', Round.extend (r :: rs) e = r' :: rs' ∧ work'.Fits text codec r' ∧
      ∀ x ∈ rs', x ∈ rs ∨ x.Good text codec := by
  cases hdoes with
  | listening hstate =>
    simp only [Fits, hstate] at h
    subst h
    refine ⟨_, _, rfl, ?_, fun x hx => Or.inl hx⟩
    exact Round.Good.of_published_eq_nil rfl fun _ hpayload => by cases hpayload
  | missed hstate =>
    simp only [Fits, hstate] at h
    exact ⟨_, _, rfl, h.missed, fun x hx => Or.inl hx⟩
  | received payload hstate =>
    simp only [Fits, hstate] at h
    refine ⟨_, _, rfl, ⟨payload, rfl, rfl, haddressed payload rfl⟩, fun x hx => ?_⟩
    rcases List.mem_cons.mp hx with rfl | hx
    · exact Or.inr h
    · exact Or.inl hx
  | skipped hstate hmsg =>
    simp only [Fits, hstate] at h
    obtain ⟨payload, rfl, hmsg', -⟩ := h
    obtain rfl : payload = [] := Slot.text.inj (hmsg'.symm.trans hmsg)
    refine ⟨_, _, rfl, ?_, fun x hx => Or.inl hx⟩
    exact Round.Good.of_published_eq_nil rfl fun _ hpayload hne =>
      absurd (Option.some.inj hpayload).symm hne
  | handled d reply s₁ hstate hmsg hne hserve =>
    -- the reply and its topic come from the payload of the round
    simp only [Fits, hstate] at h
    obtain ⟨payload, rfl, hmsg', haddr⟩ := h
    obtain rfl : d.payload = payload := Slot.text.inj (hmsg.symm.trans hmsg')
    have hreplies : Replies text codec d.payload reply := ⟨s, d, hs, rfl, by rw [hserve]⟩
    have htopic := Server.requestid_of_serve hserve
    refine ⟨_, _, rfl, ⟨d.payload, reply, rfl, hreplies, haddr, ?_⟩, fun x hx => Or.inl hx⟩
    exact Or.inl ⟨rfl, rfl, congrArg Slot.text htopic⟩
  | dropped d s₁ hstate hserve =>
    exact absurd hserve (Server.serve_ne_nil hdump)
  | failed hstate =>
    simp only [Fits, hstate] at h
    obtain ⟨payload, reply, hpayload, hreplies, -, ⟨hevents, -⟩ | ⟨hevents, -⟩⟩ := h
    · -- nothing was published, but the failure is in the round
      refine ⟨_, _, rfl, ?_, fun x hx => Or.inl hx⟩
      refine Round.Good.of_published_eq_nil ?_ fun _ _ _ => by simp
      rw [Round.published_concat, Round.published, hevents]
      rfl
    · refine ⟨_, _, rfl, ?_, fun x hx => Or.inl hx⟩
      refine Round.Good.of_published hpayload (by simp [hevents]) hreplies ?_
      rw [Round.published_concat, Round.published, hevents]
      rfl
  | published topic reply hstate hreply hrequestid =>
    simp only [Fits, hstate] at h
    obtain ⟨payload, reply', hpayload, hreplies, haddr, ⟨hevents, hreply', htopic⟩ | ⟨-, hnull⟩⟩ := h
    · obtain rfl : reply = reply' := Slot.text.inj (hreply.symm.trans hreply')
      obtain rfl : topic = text.topic payload := Slot.text.inj (hrequestid.symm.trans htopic)
      refine ⟨_, _, rfl, ?_, fun x hx => Or.inl hx⟩
      simp only [Fits, hstate]
      refine ⟨payload, reply, hpayload, hreplies, haddr, Or.inr ⟨?_, trivial⟩⟩
      rw [hevents, haddr.cString_topic]
      rfl
    · cases hreply.symm.trans hnull
  | sent hstate hreply =>
    simp only [Fits, hstate] at h
    obtain ⟨payload, reply, hpayload, hreplies, -, ⟨-, hreply', -⟩ | ⟨hevents, -⟩⟩ := h
    · cases hreply.symm.trans hreply'
    · refine ⟨_, _, rfl, ?_, fun x hx => Or.inl hx⟩
      refine Round.Good.of_published hpayload (by simp [hevents]) hreplies ?_
      rw [Round.published_concat, Round.published, hevents]
      rfl

end Fits

/-- **A callback of a record that fits comes to something**, unless a request does not return. -/
theorem Work.Fits.defined {text : JsonText} {codec : Codec} {work : Work} {s : Server} {r : Round}
    {c : Callback} (h : work.Fits text codec r) (hnone : client_cb text codec work s c = none) :
    ∃ payload, work.msg = .text payload ∧ ∀ reply s',
      s.serve text codec { c.delivery with payload } ≠ (.ret reply, s') := by
  rw [client_cb] at hnone
  rcases hstate : work.state with _ | _ | _ | _
  · simp only [hstate] at hnone
    cases hnone
  · simp only [hstate] at hnone
    split_ifs at hnone
  · simp only [Fits, hstate] at h
    obtain ⟨payload, -, hmsg, -⟩ := h
    refine ⟨payload, hmsg, fun reply s' hserve => ?_⟩
    simp only [hstate, hmsg, hserve] at hnone
    split_ifs at hnone
  · simp only [Fits, hstate] at h
    obtain ⟨payload, reply, -, -, -, ⟨-, hreply, hrequestid⟩ | ⟨-, hreply⟩⟩ := h
    · simp only [hstate, hreply, hrequestid] at hnone
      split_ifs at hnone
    · simp only [hstate, hreply] at hnone
      split_ifs at hnone

/-! ### Every run is orderly -/

namespace Workers

variable {ι : Type} [DecidableEq ι] {text : JsonText} {codec : Codec}

/-- **What is so after every history**: the record of each worker fits its last round, and the
rounds before it are over. -/
structure Kept (text : JsonText) (codec : Codec) (history : List (ι × WorkEvent))
    (w : Workers ι) : Prop where
  /-- The server is in a state that is reached. -/
  reachable : w.server.Reachable text codec
  /-- The records fit. -/
  fits : ∀ i, ∃ r rs, rounds (doneBy i history) = r :: rs ∧ (w.works i).Fits text codec r ∧
    ∀ x ∈ rs, x.Good text codec

variable {history : List (ι × WorkEvent)} {w w' : Workers ι}

theorem Kept.started {s : Server} (hs : s.Reachable text codec) :
    Kept text codec [] (started s : Workers ι) where
  reachable := hs
  fits _ := ⟨⟨none, []⟩, [], rfl, rfl, fun _ hx => absurd hx List.not_mem_nil⟩

theorem Kept.step {x : ι × WorkEvent} (h : Kept text codec history w)
    (hstep : w.Step text codec x w') (hdump : ∀ j, text.dump j ≠ .ok [])
    (haddressed : ∀ payload, x.2 = .received payload → text.Addressed payload) :
    Kept text codec (history ++ [x]) w' := by
  obtain ⟨i, e⟩ := x
  obtain ⟨c, work, s, hcallback, rfl⟩ := hstep
  have hdoes := does_of_client_cb hcallback
  refine ⟨hdoes.reachable h.reachable, fun j => ?_⟩
  obtain ⟨r, rs, hrounds, hfits, hgood⟩ := h.fits j
  by_cases hij : i = j
  · subst hij
    obtain ⟨r', rs', hextend, hfits', hgood'⟩ := hfits.next hdoes h.reachable hdump haddressed rs
    refine ⟨r', rs', ?_, ?_, fun x hx => (hgood' x hx).elim (hgood x) id⟩
    · rw [doneBy_concat_self, rounds_concat, hrounds, hextend]
    · simpa using hfits'
  · refine ⟨r, rs, ?_, ?_, hgood⟩
    · rw [doneBy_concat_of_ne history hij, hrounds]
    · show Work.Fits text codec (Function.update w.works i work j) r
      rw [Function.update_of_ne (Ne.symm hij)]
      exact hfits

theorem Kept.toOrderly (h : Kept text codec history w) : Orderly text codec history w where
  routed i r hr := by
    obtain ⟨r', rs, hrounds, hfits, hgood⟩ := h.fits i
    rw [hrounds] at hr
    rcases List.mem_cons.mp hr with rfl | hr
    · exact hfits.routed
    · exact (hgood r hr).1
  answered i r hr := by
    obtain ⟨r', rs, hrounds, -, hgood⟩ := h.fits i
    rw [hrounds] at hr
    exact (hgood r hr).2
  settled i hstate r hr := by
    obtain ⟨r', rs, hrounds, hfits, hgood⟩ := h.fits i
    rw [hrounds] at hr
    rcases List.mem_cons.mp hr with rfl | hr
    · rw [Work.Fits, hstate] at hfits
      exact hfits.2
    · exact (hgood r hr).2
  returns i e w' hstep hstate := by
    obtain ⟨c, work, s, hcallback, rfl⟩ := hstep
    simpa using (does_of_client_cb hcallback).returns hstate
  closer i e w' hstep hrank := by
    obtain ⟨c, work, s, hcallback, rfl⟩ := hstep
    simpa using (does_of_client_cb hcallback).rank_lt hrank
  defined i c hnone := by
    obtain ⟨r, rs, -, hfits, -⟩ := h.fits i
    exact hfits.defined hnone

end Workers

/-- **Replies are routed to who asked**, whatever the workers do and in whatever order, if the
topic of every request that is received is found out. -/
theorem orderly {ι : Type} [DecidableEq ι] {text : JsonText} {codec : Codec} {s : Server}
    {history : List (ι × WorkEvent)} {w : Workers ι} (hs : s.Reachable text codec)
    (hdump : ∀ j, text.dump j ≠ .ok [])
    (hrun : History.Run (Workers.Step text codec) (.started s) history w)
    (haddressed : ∀ i payload, (i, .received payload) ∈ history → text.Addressed payload) :
    Orderly text codec history w := by
  have hkept : Workers.Kept text codec history w := by
    induction hrun with
    | nil => exact .started hs
    | @snoc history w w' x hrun hstep ih =>
      refine (ih fun i payload hx => ?_).step hstep hdump fun payload hx => ?_
      · exact haddressed i payload (List.mem_append_left _ hx)
      · refine haddressed x.1 payload (List.mem_append_right _ ?_)
        rw [← hx]
        exact List.mem_singleton_self x
  exact hkept.toOrderly

/-! ### Runs that are computed -/

namespace Workers

variable {ι : Type} [DecidableEq ι]

/-- The callbacks of workers, one after the other: what they do, and what is there then. -/
def turns (text : JsonText) (codec : Codec) :
    Workers ι → List (ι × Callback) → Option (List (ι × WorkEvent) × Workers ι)
  | w, [] => some ([], w)
  | w, (i, c) :: xs => do
    let (e, work, s) ← client_cb text codec (w.works i) w.server c
    let (history, w') ← turns text codec ⟨s, Function.update w.works i work⟩ xs
    return ((i, e) :: history, w')

theorem run_of_turns {text : JsonText} {codec : Codec} {xs : List (ι × Callback)}
    {history : List (ι × WorkEvent)} {w w' : Workers ι}
    (h : turns text codec w xs = some (history, w')) :
    History.Run (Step text codec) w history w' := by
  induction xs generalizing w history with
  | nil =>
    cases h
    exact .nil
  | cons x xs ih =>
    obtain ⟨⟨e, work, s⟩, hcallback, h⟩ := Option.bind_eq_some_iff.mp h
    obtain ⟨⟨history', w₁⟩, hturns, h⟩ := Option.bind_eq_some_iff.mp h
    cases h
    exact (History.Run.nil.snoc ⟨x.2, work, s, hcallback, rfl⟩).append (ih hturns)

end Workers

/-- There is a first of two workers. -/
instance instNeZeroTwo : NeZero 2 := ⟨two_ne_zero⟩

/-- A callback nothing fails in. -/
def Callback.calm (d : Delivery) : Callback := ⟨true, d.payload, d, true⟩

/-- One of two workers receives a message, and then its callback is run until it receives again. -/
def oneRequest (d : Delivery) : List (Fin 2 × Callback) :=
  [(0, .calm d), (1, .calm d), (0, .calm d), (0, .calm d), (0, .calm d), (0, .calm d)]

/-- What has been received in the rounds of the worker, and the topics of what was published. -/
def topicsOf (history : List (Fin 2 × WorkEvent)) : List (Option Bytes × List Bytes) :=
  (rounds (doneBy 0 history)).map fun r => (r.payload, r.published.map Prod.fst)

/-- The payloads that have been received. -/
def receivedIn (history : List (Fin 2 × WorkEvent)) : List Bytes :=
  history.filterMap fun x => match x.2 with
    | .received payload => some payload
    | _ => none

/-- What is done on a new server with one request. -/
def turnsOf (d : Delivery) : Option (List (Fin 2 × WorkEvent) × Workers (Fin 2)) :=
  Workers.turns .standard .standard (.started (.started .fresh)) (oneRequest d)

theorem reachable_fresh : (Server.started .fresh).Reachable .standard .standard :=
  ⟨.fresh, [], rfl, .nil⟩

/-- **A request that one of two workers receives** is answered where it asks to be. -/
theorem orderly_creating : ∃ (history : List (Fin 2 × WorkEvent)) (w : Workers (Fin 2)),
    Orderly .standard .standard history w ∧
      topicsOf history = [(some (Delivery.named "create_collection" "c").payload,
        [Bytes.ofText "anudb/response/1"]), (none, [])] := by
  have hcomputed : (turnsOf (.named "create_collection" "c")).map
      (fun x => (topicsOf x.1, receivedIn x.1)) =
        some ([(some (Delivery.named "create_collection" "c").payload,
          [Bytes.ofText "anudb/response/1"]), (none, [])],
            [(Delivery.named "create_collection" "c").payload]) := by decide +kernel
  obtain ⟨⟨history, w⟩, hturns, hboth⟩ := Option.map_eq_some_iff.mp hcomputed
  obtain ⟨htopics, hreceived⟩ := Prod.mk.inj hboth
  refine ⟨history, w, ?_, htopics⟩
  refine orderly reachable_fresh JsonText.dump_standard_ne_nil (Workers.run_of_turns hturns) ?_
  intro i payload hmem
  have hpayload : payload ∈ receivedIn history :=
    List.mem_filterMap.mpr ⟨_, hmem, rfl⟩
  rw [hreceived, List.mem_singleton] at hpayload
  subst hpayload
  have hfields : (JsonText.standard.fields (Delivery.named "create_collection" "c").payload
      ).toOption.map Prod.snd = some (Bytes.ofText "create_collection", Bytes.ofText "1") := by
    decide +kernel
  exact .of_fields hfields (by decide)

/-- **A request without a command is answered where nobody asked**, though it has an id. -/
theorem not_orderly_of_no_command : ∃ (history : List (Fin 2 × WorkEvent)) (w : Workers (Fin 2)),
    (Server.started .fresh).Reachable .standard .standard ∧
      History.Run (Workers.Step .standard .standard) (.started (.started .fresh)) history w ∧
        ¬Orderly .standard .standard history w := by
  have hcomputed : (turnsOf (.ofTexts [("request_id", "1")])).map (fun x => topicsOf x.1) =
      some [(some (Delivery.ofTexts [("request_id", "1")]).payload,
        [ANUDB_RESPONSE_TOPIC]), (none, [])] := by decide +kernel
  obtain ⟨⟨history, w⟩, hturns, htopics⟩ := Option.map_eq_some_iff.mp hcomputed
  refine ⟨history, w, reachable_fresh, Workers.run_of_turns hturns, fun horderly => ?_⟩
  obtain ⟨r, hr, hround⟩ : ∃ r ∈ rounds (doneBy 0 history), (r.payload, r.published.map Prod.fst) =
      (some (Delivery.ofTexts [("request_id", "1")]).payload, [ANUDB_RESPONSE_TOPIC]) := by
    refine List.mem_map.mp ?_
    show _ ∈ topicsOf history
    rw [htopics]
    exact List.mem_cons_self
  obtain ⟨hpayload, hpublished⟩ := Prod.mk.inj hround
  obtain ⟨x, hx, htopic⟩ : ∃ x ∈ r.published, x.1 = ANUDB_RESPONSE_TOPIC := by
    refine List.mem_map.mp ?_
    rw [hpublished]
    exact List.mem_cons_self
  obtain ⟨-, payload, hpayload', -, hrouted⟩ := (horderly.routed 0 r hr).routed x hx
  rw [hpayload] at hpayload'
  obtain rfl := Option.some.inj hpayload'
  rw [htopic] at hrouted
  exact absurd hrouted (by decide +kernel)

end AnuDB
