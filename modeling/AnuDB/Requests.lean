import AnuDB.Handle
import AnuDB.JsonFormat
import AnuDB.Server

/-!
# How a request is taken apart

What the results on requests are proved with: the run of a request in terms of what it asks for
(`AnuDB.JsonText.asked`), and a rule for each thing handlers are made of. The rules are those of
`Effect.Action.Triple`, so each result on the handlers says what it needs to of the state and of
the ways a handler ends, and nothing else.
-/

namespace AnuDB

open Effect

/-! ### The world a handler calls the engine in -/

theorem World.refusals_refusing (e : StorageEngine) (r : Stream' (Option Bytes)) :
    (World.refusing e r).refusals = r := by
  funext n
  change (Fate.fault? (Option.elim (r n) .ok .fail)).join = r n
  cases r n <;> rfl

theorem Serving.after_refusing (s : Serving) (e : StorageEngine) (r : Stream' (Option Bytes)) :
    s.after (.refusing e r) = { s with engine := e, refusals := r } := by
  rw [after, World.refusals_refusing]
  rfl

/-! ### What a payload asks for -/

namespace JsonText

variable (text : JsonText) (payload : Bytes)

/-- The request, its command and its id. -/
def fields : Except Exn (Json × Bytes × Bytes) := do
  let req ← (text.parse payload).mapError Exn.exception
  let cmd ← req.stringAt (Bytes.ofText "command")
  let req_id ← req.stringAt (Bytes.ofText "request_id")
  return (req, cmd, req_id)

/-- The topic the reply goes to. -/
def topic : Bytes :=
  match text.fields payload with
  | .ok (_, _, req_id) => ANUDB_RESPONSE_TOPIC ++ req_id
  | .error _ => ANUDB_RESPONSE_TOPIC

/-- **What a payload asks for**: a command, with the request; or else the message of the reply. -/
def asked : Except Bytes (Command × Json) :=
  match text.fields payload with
  | .ok (req, cmd, _) =>
    match Command.ofText? cmd with
    | some command => .ok (command, req)
    | none => .error (Bytes.ofText "Unknown command: " ++ cmd)
  | .error (.exception what) => .error (Bytes.ofText "Exception :" ++ what)
  | .error (.undefined _) => .error []

end JsonText

namespace Json

variable {j : Json} {field : Bytes}

/-- A member that is no string throws an exception. -/
theorem stringAt_eq_error {e : Exn} (h : j.stringAt field = .error e) :
    ∃ k : Json, e = k.notIndexable ∨ e = k.notAString := by
  rw [stringAt] at h
  rcases hindex : j.index field with e' | v
  · rw [hindex] at h
    obtain rfl : e' = e := Except.error.inj h
    refine ⟨j, Or.inl ?_⟩
    cases j <;> simp_all [index]
  · rw [hindex, ok_bind] at h
    refine ⟨v, Or.inr ?_⟩
    cases v <;> simp_all [getString]

end Json

namespace JsonText

variable {text : JsonText} {payload complaint cmd req_id : Bytes} {command : Command} {req : Json}
  {e : Exn}

/-- The fields are found where the payload is parsed and both are texts. -/
theorem fields_eq_ok_iff : text.fields payload = .ok (req, cmd, req_id) ↔
    text.parse payload = .ok req ∧ req.stringAt (Bytes.ofText "command") = .ok cmd ∧
      req.stringAt (Bytes.ofText "request_id") = .ok req_id := by
  rw [fields]
  constructor
  · intro h
    obtain ⟨req', hparse, h⟩ := bind_eq_ok_iff.mp h
    obtain ⟨cmd', hcmd, h⟩ := bind_eq_ok_iff.mp h
    obtain ⟨req_id', hid, h⟩ := bind_eq_ok_iff.mp h
    cases h
    refine ⟨?_, hcmd, hid⟩
    rcases hparse' : text.parse payload with what | req'
    · rw [hparse'] at hparse
      cases hparse
    · rw [hparse'] at hparse
      exact congrArg Except.ok (Except.ok.inj hparse)
  · rintro ⟨hparse, hcmd, hid⟩
    rw [hparse]
    simp only [Except.mapError, ok_bind, hcmd, hid]
    rfl

/-- What is thrown is a complaint of the parser, or of a field that is no text. -/
theorem fields_eq_error (h : text.fields payload = .error e) :
    (∃ what, text.parse payload = .error what ∧ e = .exception what) ∨
      ∃ req field, text.parse payload = .ok req ∧ req.stringAt field = .error e := by
  rw [fields] at h
  rcases hparse : text.parse payload with what | req
  · rw [hparse] at h
    exact Or.inl ⟨what, rfl, (Except.error.inj h).symm⟩
  simp only [hparse, Except.mapError, ok_bind] at h
  rcases hcmd : req.stringAt (Bytes.ofText "command") with e' | cmd
  · rw [hcmd] at h
    obtain rfl : e' = e := Except.error.inj h
    exact Or.inr ⟨req, _, rfl, hcmd⟩
  rw [hcmd, ok_bind] at h
  rcases hid : req.stringAt (Bytes.ofText "request_id") with e' | req_id
  · rw [hid] at h
    obtain rfl : e' = e := Except.error.inj h
    exact Or.inr ⟨req, _, rfl, hid⟩
  · rw [hid] at h
    cases h

theorem exists_exception_of_fields (h : text.fields payload = .error e) :
    ∃ what, e = .exception what := by
  rcases fields_eq_error h with ⟨what, -, rfl⟩ | ⟨req, field, -, hstring⟩
  · exact ⟨what, rfl⟩
  · obtain ⟨k, rfl | rfl⟩ := Json.stringAt_eq_error hstring
    · exact ⟨_, rfl⟩
    · exact ⟨_, rfl⟩

theorem asked_eq_ok (h : text.asked payload = .ok (command, req)) : ∃ cmd req_id,
    text.fields payload = .ok (req, cmd, req_id) ∧ Command.ofText? cmd = some command := by
  rw [asked] at h
  rcases hfields : text.fields payload with e | ⟨req', cmd, req_id⟩
  · rw [hfields] at h
    cases e <;> cases h
  · simp only [hfields] at h
    rcases hcmd : Command.ofText? cmd with _ | command'
    · rw [hcmd] at h
      cases h
    · rw [hcmd] at h
      obtain ⟨rfl, rfl⟩ := Prod.mk.inj (Except.ok.inj h)
      exact ⟨cmd, req_id, rfl, hcmd⟩

theorem asked_eq_error (h : text.asked payload = .error complaint) :
    (∃ what, text.fields payload = .error (.exception what) ∧
      complaint = Bytes.ofText "Exception :" ++ what) ∨
    ∃ req cmd req_id, text.fields payload = .ok (req, cmd, req_id) ∧
      Command.ofText? cmd = none ∧ complaint = Bytes.ofText "Unknown command: " ++ cmd := by
  rw [asked] at h
  rcases hfields : text.fields payload with e | ⟨req', cmd, req_id⟩
  · obtain ⟨what, rfl⟩ := exists_exception_of_fields hfields
    rw [hfields] at h
    exact Or.inl ⟨what, rfl, (Except.error.inj h).symm⟩
  · simp only [hfields] at h
    rcases hcmd : Command.ofText? cmd with _ | command'
    · rw [hcmd] at h
      exact Or.inr ⟨req', cmd, req_id, rfl, hcmd, (Except.error.inj h).symm⟩
    · rw [hcmd] at h
      cases h

end JsonText

/-! ### The run of a request -/

namespace Service

/-- The reply when something has been done: it is dumped outside the `try`. -/
def reply (text : JsonText) (x : Service Unit) : Service Bytes := do
  x
  let s ← Action.get
  Action.ofExcept ((text.dump s.resp).mapError Exn.exception)

/-- A reply that complains. -/
def complaint (text : Bytes) : Json :=
  .object [(message, .string text), (status, .string error)]

/-- Something went wrong before there was anything in the reply. -/
theorem run_complain {s : Serving} (h : s.resp = .null) (text : Bytes) :
    (do report false; answer [(status, error), (message, text)] : Service Unit).run s =
      (.ret (), { s with failed := true, resp := complaint text }) := by
  obtain ⟨server, refusals, taken, requestid, published, resp, failed⟩ := s
  obtain rfl : resp = .null := h
  cases failed <;> rfl

/-- The part of `handle_request` inside the `try`, in terms of the fields of the request. -/
theorem parse_dispatch (text : JsonText) (codec : Codec) (d : Delivery) :
    (do
      let req ← Action.ofExcept ((text.parse d.payload).mapError Exn.exception)
      dispatch text codec d req : Service Unit) =
    (do
      let (req, cmd, req_id) ← Action.ofExcept (text.fields d.payload)
      route (ANUDB_RESPONSE_TOPIC ++ req_id)
      match Command.ofText? cmd with
      | some command => command.handle text codec d req (ANUDB_RESPONSE_TOPIC ++ req_id)
      | none => do
        report false
        answer [(status, error), (message, Bytes.ofText "Unknown command: " ++ cmd)]) := by
  rw [JsonText.fields]
  rcases text.parse d.payload with what | req
  · rfl
  simp only [Except.mapError, ok_bind, Action.ofExcept_ok, Action.pure_bind', dispatch]
  rcases req.stringAt (Bytes.ofText "command") with e | cmd
  · rfl
  rcases req.stringAt (Bytes.ofText "request_id") with e | id <;> rfl

end Service

namespace Server

variable {text : JsonText} {codec : Codec} {s : Server} {d : Delivery}

/-- What is there when the handler of the command begins. -/
def begun (text : JsonText) (s : Server) (d : Delivery) : Serving :=
  { s.serving d with requestid := text.topic d.payload }

theorem serve_eq : s.serve text codec d = (Service.reply text
    (Service.catching (Bytes.ofText "Exception :") (do
      let req ← Action.ofExcept ((text.parse d.payload).mapError Exn.exception)
      Service.dispatch text codec d req))).run
        { s.serving d with requestid := ANUDB_RESPONSE_TOPIC } := rfl

/-- **A request that asks for a command** is handled by it. -/
theorem serve_of_asked {command : Command} {req : Json}
    (h : text.asked d.payload = .ok (command, req)) : s.serve text codec d =
      (Service.reply text (Service.catching (Bytes.ofText "Exception :")
        (command.handle text codec d req (text.topic d.payload)))).run (s.begun text d) := by
  obtain ⟨cmd, req_id, hfields, hcmd⟩ := JsonText.asked_eq_ok h
  rw [serve_eq, Service.parse_dispatch, begun, JsonText.topic, hfields]
  simp only [Action.ofExcept_ok, Action.pure_bind', hcmd]
  rfl

/-- **A request that asks for nothing** is complained about. -/
theorem serve_of_not_asked {complaint : Bytes} (h : text.asked d.payload = .error complaint) :
    s.serve text codec d = (Service.reply text (pure ())).run
      { s.begun text d with failed := true, resp := Service.complaint complaint } := by
  rw [serve_eq, Service.parse_dispatch, begun, JsonText.topic]
  rcases JsonText.asked_eq_error h with
    ⟨what, hfields, rfl⟩ | ⟨req, cmd, req_id, hfields, hcmd, rfl⟩
  · rw [hfields]
    rfl
  · rw [hfields]
    simp only [Action.ofExcept_ok, Action.pure_bind', hcmd]
    rfl

/-! ### Runs that are computed -/

/-- The server after a request of which RocksDB refuses nothing. -/
def after (s : Server) (d : Delivery) : Server := (s.serve .standard .standard d).2.toServer

/-- Whether the request does not end in undefined behaviour. -/
def survives (s : Server) (d : Delivery) : Bool :=
  match (s.serve .standard .standard d).1 with
  | .raise (.undefined _) => false
  | _ => true

theorem step_after (h : s.survives d = true) : s.Step .standard .standard d (s.after d) := by
  refine ⟨fun u hu => ?_, rfl⟩
  rw [survives, hu] at h
  cases h

end Server

/-- A request whose members are texts, and of which nothing is refused. -/
def Delivery.ofTexts (members : List (String × String)) : Delivery where
  payload := (JsonText.standard.dump (.object (members.map fun x =>
    (Bytes.ofText x.1, .string (Bytes.ofText x.2))))).toOption.getD []
  refusals := Stream'.const none
  entropy := ⟨0, fun _ => 0⟩
  os := .calm
  taken := Stream'.const true

/-- A command on a collection. -/
def Delivery.named (command collection : String) : Delivery :=
  .ofTexts [("command", command), ("request_id", "1"), ("collection_name", collection)]

namespace Service

variable {α β : Type} {P : Serving → Prop} {Q : α → Serving → Prop} {E : Exn → Serving → Prop}

/-! ### The rules -/

theorem triple_engine {p : Engine α}
    (hret : ∀ s a w, P s → p.run (.refusing s.engine s.refusals) = (.ret a, w) → Q a (s.after w))
    (hraise : ∀ s e w, P s → p.run (.refusing s.engine s.refusals) = (.raise e, w) →
      E e (s.after w)) : (engine p).Triple P Q E := by
  intro s hs
  have hstopped := p.run_refusing_ne_stopped s.engine s.refusals
  rcases hrun : p.run (.refusing s.engine s.refusals) with ⟨a | e | _, w⟩
  · exact Or.inl ⟨a, s.after w, by rw [Action.run, engine, hrun], hret s a w hs hrun⟩
  · exact Or.inr ⟨e, s.after w, by rw [Action.run, engine, hrun], hraise s e w hs hrun⟩
  · rw [hrun] at hstopped
    exact absurd rfl hstopped

theorem triple_database {method : Objects → Engine (α × Objects)}
    (hret : ∀ s a o w, P s →
      (method s.objects).run (.refusing s.engine s.refusals) = (.ret (a, o), w) →
        Q a { s.after w with objects := o })
    (hraise : ∀ s e w, P s →
      (method s.objects).run (.refusing s.engine s.refusals) = (.raise e, w) → E e (s.after w)) :
    (database method).Triple P Q E := by
  refine Action.Triple.get_bind fun s hs => ?_
  refine Action.Triple.bind (Q := fun x s' => Q x.1 { s' with objects := x.2 })
    (triple_engine ?_ ?_) fun x => ?_
  · rintro s₁ ⟨a, o⟩ w rfl hrun
    exact hret _ a o w hs hrun
  · rintro s₁ e w rfl hrun
    exact hraise _ e w hs hrun
  · exact Action.Triple.bind (Action.Triple.modify (Q := fun _ s => Q x.1 s) fun s h => h)
      fun _ => Action.Triple.pure fun s h => h

theorem triple_set {field : Bytes} {value : Json} {Q : Unit → Serving → Prop}
    (hok : ∀ s resp, P s → s.resp.setMember field value = .ok resp → Q () { s with resp })
    (herror : ∀ s e, P s → s.resp.setMember field value = .error e → E e s) :
    (set field value).Triple P Q E := by
  intro s hs
  rcases hresp : s.resp.setMember field value with e | resp
  · exact Or.inr ⟨e, s, by rw [Action.run, set, hresp], herror s e hs hresp⟩
  · exact Or.inl ⟨(), _, by rw [Action.run, set, hresp], hok s resp hs hresp⟩

/-- What is caught is put into the reply. -/
theorem triple_catching {heading : Bytes} {x : Service Unit} {Q : Unit → Serving → Prop}
    {E' : Exn → Serving → Prop} (hx : x.Triple P Q E')
    (hcaught : ∀ what, (do
        report false
        answer [(status, error), (message, heading ++ what)] : Service Unit).Triple
          (E' (.exception what)) Q E)
    (hundefined : ∀ u s, E' (.undefined u) s → E (.undefined u) s) :
    (catching heading x).Triple P Q E := by
  refine hx.tryCatch fun e => ?_
  cases e with
  | exception what => exact hcaught what
  | undefined u => exact Action.Triple.raise (hundefined u)

/-! ### What handlers uphold -/

/-- What may be known of a server: of its objects, its engine and its pointers. -/
abbrev Known : Type := Objects → StorageEngine → CollMap → Prop

/-- What is known, of what is there while a request is handled. -/
abbrev On (J : Known) : Serving → Prop := fun s => J s.objects s.engine s.collMap_

/-- **What is known in the end**, unless there is undefined behaviour. -/
abbrev Upholds (P : Serving → Prop) (J : Known) (x : Service α) : Prop :=
  x.Triple P (fun _ => On J) fun e s => (∃ what, e = .exception what) → On J s

/-- What is known is not changed by calls to the engine. -/
def Steady (J : Known) (p : Engine α) : Prop :=
  ∀ o e r m, J o e m → J o (p.run (.refusing e r)).2.engine m

section Upholds

variable {J : Known}

theorem upholds_ofExcept_bind {x : Except Exn α} {f : α → Service β}
    (hP : ∀ s, P s → On J s) (h : ∀ a, Upholds P J (f a)) :
    Upholds P J (Action.ofExcept x >>= f) :=
  Action.Triple.ofExcept_bind (fun a _ => h a) fun _ _ s hs _ => hP s hs

theorem upholds_modify {f : Serving → Serving} (h : ∀ s, On J s → On J (f s)) :
    Upholds (On J) J (Action.modify f) := Action.Triple.modify h

theorem upholds_engine {p : Engine α} (hp : Steady J p) : (engine p).Upholds (On J) J := by
  refine triple_engine (fun s a w hs hrun => ?_) fun s e w hs hrun _ => ?_
  · have hsteady := hp s.objects s.engine s.refusals s.collMap_ hs
    rwa [hrun] at hsteady
  · have hsteady := hp s.objects s.engine s.refusals s.collMap_ hs
    rwa [hrun] at hsteady

theorem upholds_set (field : Bytes) (value : Json) : (set field value).Upholds (On J) J :=
  triple_set (fun _ _ hs _ => hs) fun _ _ hs _ _ => hs

theorem upholds_answer (fields : List (Bytes × Bytes)) : (answer fields).Upholds (On J) J := by
  induction fields with
  | nil => exact Action.Triple.pure fun _ hs => hs
  | cons x fields ih => exact Action.Triple.bind (upholds_set _ _) fun _ => ih

theorem upholds_conclude (result : Status) (done : List (Bytes × Bytes)) (failure : Bytes) :
    (conclude result done failure).Upholds (On J) J := by
  refine Action.Triple.bind (upholds_modify fun _ hs => hs) fun _ => ?_
  split_ifs
  · exact upholds_answer _
  · exact upholds_answer _

theorem upholds_complain (fields : List (Bytes × Bytes)) :
    (do report false; answer fields : Service Unit).Upholds (On J) J :=
  Action.Triple.bind (upholds_modify fun _ hs => hs) fun _ => upholds_answer fields

theorem upholds_collection (name : Bytes) : (collection name).Upholds (On J) J := by
  refine Action.Triple.get_bind fun s hs => ?_
  split
  · exact Action.Triple.raise fun s' hs' h => by cases h.choose_spec
  · split_ifs
    · exact Action.Triple.pure fun s' hs' => hs' ▸ hs
    · exact Action.Triple.raise fun s' hs' h => by cases h.choose_spec

/-- A call on a collection, and what is done with what it returns. -/
theorem upholds_call {β : Type} {name : Bytes} {p : Collection → Engine β} {k : β → Service Unit}
    (hp : ∀ c, Steady J (p c)) (hk : ∀ b, (k b).Upholds (On J) J) : (do
      let c ← collection name
      let b ← engine (p c)
      k b : Service Unit).Upholds (On J) J := by
  refine Action.Triple.bind (upholds_collection name) fun c => ?_
  exact Action.Triple.bind (upholds_engine (hp c)) hk

theorem upholds_catching {heading : Bytes} {x : Service Unit} (h : x.Upholds P J) :
    (catching heading x).Upholds P J := by
  refine triple_catching h (fun what => ?_) fun u s _ h => by cases h.choose_spec
  exact (upholds_complain _).mono (fun s hs => hs ⟨what, rfl⟩) (fun _ _ h => h) fun _ _ h => h

theorem upholds_onCollection {req : Json} {body : Bytes → Service Unit}
    (hlookup : ∀ name, (lookup name).Upholds (On J) J)
    (hbody : ∀ name, (body name).Upholds (On J) J) : (onCollection req body).Upholds (On J) J := by
  refine upholds_catching (upholds_ofExcept_bind (fun _ hs => hs) fun name => ?_)
  refine Action.Triple.bind (hlookup name) fun found => ?_
  cases found with
  | true => exact hbody name
  | false => exact upholds_complain _

theorem upholds_reply {text : JsonText} {x : Service Unit} (h : x.Upholds P J) :
    (reply text x).Upholds P J := by
  refine Action.Triple.bind h fun _ => Action.Triple.get_bind fun s hs => ?_
  intro s' hs'
  rw [Action.run_ofExcept]
  rcases (text.dump s.resp).mapError Exn.exception with e | payload
  · exact Or.inr ⟨e, s', rfl, fun _ => hs' ▸ hs⟩
  · exact Or.inl ⟨payload, s', rfl, hs' ▸ hs⟩

variable {text : JsonText} {codec : Codec} {d : Delivery} {req : Json} {topic : Bytes}

theorem upholds_sendEntries (entries : List (Bytes × Bytes)) :
    (sendEntries text codec topic entries).Upholds (On J) J := by
  induction entries with
  | nil => exact Action.Triple.pure fun _ hs => hs
  | cons x entries ih =>
    refine upholds_ofExcept_bind (fun _ hs => hs) fun doc => ?_
    refine upholds_ofExcept_bind (fun _ hs => hs) fun payload => ?_
    exact Action.Triple.bind (upholds_modify fun _ hs => hs) fun _ => ih

theorem upholds_sendDocuments {c : Collection} (hread : ∀ docId, Steady J (c.readDocument codec docId))
    (docIds : List Bytes) : (sendDocuments text codec topic c docIds).Upholds (On J) J := by
  induction docIds with
  | nil => exact Action.Triple.pure fun _ hs => hs
  | cons docId docIds ih =>
    refine Action.Triple.bind (Q := fun _ => On J) ?_ fun _ => ih
    refine Action.Triple.bind (upholds_engine (hread docId)) fun found => ?_
    cases found with
    | error result => exact upholds_modify fun _ hs => hs
    | ok doc =>
      exact upholds_ofExcept_bind (fun _ hs => hs) fun payload => upholds_modify fun _ hs => hs

/-- **What the handlers of the other commands uphold**: what calls that keep the handle leave as it
is, and looking a collection up does. -/
theorem upholds_handle
    (hengine : ∀ {α : Type} (p : Engine α), p.Uses Call.KeepsHandle → Steady J p)
    (hlookup : ∀ name, (lookup name).Upholds (On J) J) {command : Command}
    (hcreate : command ≠ .create_collection) (hdelete : command ≠ .delete_collection) :
    (command.handle text codec d req topic).Upholds (On J) J := by
  have hwithin {α : Type} {p : Engine α} {c : Bytes} (hp : p.Uses (Call.Within c)) : Steady J p :=
    hengine p (hp.mono fun x => Call.Within.keepsHandle)
  have hindex (c : Collection) (field : Bytes) : Steady J (c.createIndex codec none field) :=
    hengine _ ((Collection.uses_createIndex none field).mono fun x h => h.within.keepsHandle)
  cases command with
  | create_collection => exact absurd rfl hcreate
  | delete_collection => exact absurd rfl hdelete
  | get_collections =>
    refine Action.Triple.bind (upholds_engine (hengine _ ?_)) fun names => upholds_set _ _
    exact Prog.uses_perform.mpr trivial
  | create_document =>
    refine upholds_onCollection hlookup fun name => ?_
    refine upholds_ofExcept_bind (fun _ hs => hs) fun docId => ?_
    refine upholds_ofExcept_bind (fun _ hs => hs) fun data => ?_
    exact upholds_call (fun c => hwithin (Collection.uses_createDocument _ _))
      fun x => upholds_conclude _ _ _
  | delete_document =>
    refine upholds_onCollection hlookup fun name => ?_
    split_ifs
    · refine upholds_ofExcept_bind (fun _ hs => hs) fun docId => ?_
      exact upholds_call (fun c => hwithin (Collection.uses_deleteDocument docId))
        fun x => upholds_conclude _ _ _
    · exact Action.Triple.pure fun _ hs => hs
  | read_document =>
    refine Action.Triple.bind (Q := fun _ => On J) ?_ fun _ => upholds_set _ _
    refine upholds_onCollection hlookup fun name => ?_
    split_ifs
    · refine upholds_ofExcept_bind (fun _ hs => hs) fun docId => ?_
      refine upholds_call (fun c => hwithin (Collection.uses_readDocument docId)) fun found => ?_
      cases found with
      | error result => exact upholds_complain _
      | ok doc => exact upholds_modify fun _ hs => hs
    · refine upholds_ofExcept_bind (fun _ hs => hs) fun limit => ?_
      exact upholds_call (fun c => hengine _ (Prog.uses_perform.mpr trivial))
        fun entries => upholds_sendEntries _
  | create_index =>
    refine upholds_onCollection hlookup fun name => ?_
    refine upholds_ofExcept_bind (fun _ hs => hs) fun field => ?_
    exact upholds_call (fun c => hindex c field) fun x => upholds_conclude _ _ _
  | delete_index =>
    refine upholds_onCollection hlookup fun name => ?_
    refine upholds_ofExcept_bind (fun _ hs => hs) fun field => ?_
    exact upholds_call (fun c => hindex c field) fun x => upholds_conclude _ _ _
  | get_indexes =>
    refine upholds_onCollection hlookup fun name => ?_
    exact upholds_call (fun c => hengine _ (Prog.uses_perform.mpr trivial))
      fun indexes => upholds_answer _
  | find_documents =>
    refine Action.Triple.bind (Q := fun _ => On J) ?_ fun _ => upholds_set _ _
    refine upholds_onCollection hlookup fun name => ?_
    refine upholds_ofExcept_bind (fun _ hs => hs) fun _ => ?_
    refine upholds_ofExcept_bind (fun _ hs => hs) fun query => ?_
    refine Action.Triple.bind (upholds_collection name) fun c => ?_
    -- the ids are found in the state that is there, and the documents are read one by one
    refine Action.Triple.get_bind fun s hs => ?_
    refine upholds_ofExcept_bind (fun s' hs' => hs' ▸ hs) fun docIds => ?_
    refine Action.Triple.bind (Q := fun _ => On J) (Action.Triple.modify ?_)
      fun _ => upholds_sendDocuments (fun docId => hwithin (Collection.uses_readDocument docId)) docIds
    exact fun s' hs' => hs' ▸ hs
  | export_collection =>
    refine upholds_onCollection hlookup fun name => ?_
    refine upholds_ofExcept_bind (fun _ hs => hs) fun destDir => ?_
    refine Action.Triple.bind (upholds_collection name) fun c => ?_
    refine Action.Triple.bind (Q := fun _ => On J) ?_ fun _ => upholds_conclude _ _ _
    refine Action.Triple.get_bind fun s hs => ?_
    refine Action.Triple.bind (Q := fun _ => On J) (Action.Triple.modify ?_) fun _ => ?_
    · exact fun s' hs' => hs' ▸ hs
    · split
      · exact Action.Triple.raise fun _ hs _ => hs
      · exact Action.Triple.bind (upholds_modify fun _ hs => hs)
          fun _ => Action.Triple.pure fun _ hs => hs

end Upholds

end Service

namespace Server

variable {text : JsonText} {codec : Codec} {s s' : Server} {d : Delivery}

/-- What a step upholds is so after it: it does not end in undefined behaviour. -/
theorem Step.of_upholds {J : Service.Known} (h : s.Step text codec d s')
    {x : Service Unit} {s₁ : Serving} (hserve : s.serve text codec d =
      (Service.reply text x).run s₁) (hx : x.Upholds (· = s₁) J) :
    J s'.objects s'.engine s'.collMap_ := by
  obtain ⟨hundefined, rfl⟩ := h
  rcases Service.upholds_reply hx s₁ rfl with ⟨a, s₂, hrun, hJ⟩ | ⟨e, s₂, hrun, hJ⟩
  · rw [hserve, hrun]
    exact hJ
  · rw [hserve, hrun] at hundefined ⊢
    cases e with
    | exception what => exact hJ ⟨what, rfl⟩
    | undefined u => exact absurd rfl (hundefined u)

end Server

end AnuDB
