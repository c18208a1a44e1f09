import AnuDB.Commands
import AnuDB.Survival

/-!
# What a client gets to read

The reply to a `read_document` is the document, and the dispatcher puts the status into it as if it
were a reply like the others. So a document that has a `status` of its own comes back with the one
of the protocol, and nothing in the reply tells that.

That is the one name that matters. All other fields are in the reply with the values they have, as
far as text can tell them: a string that is not UTF-8 cannot be dumped, and a double that is not
finite is dumped as `null` (`AnuDB.JsonText.WritesNull`). Which documents are delivered is told by
their data alone, once the server has the collection (`AnuDB.Server.delivers_iff`).
-/

namespace AnuDB

open Effect

/-! ### What a text keeps -/

mutual

/-- A value as it is written: with `null` for the doubles that are not finite. -/
def Json.written : Json → Json
  | .float bits => if Binary64.Finite bits then .float bits else .null
  | .array items => .array (writtenItems items)
  | .object members => .object (writtenMembers members)
  | j => j

/-- The elements of an array as they are written. -/
def writtenItems : List Json → List Json
  | [] => []
  | item :: items => item.written :: writtenItems items

/-- The members of an object as they are written. -/
def writtenMembers : List (Bytes × Json) → List (Bytes × Json)
  | [] => []
  | (key, value) :: members => (key, value.written) :: writtenMembers members

end

section Written

variable {string : Bytes → Bool} {float : UInt64 → Bool}

mutual

/-- **What is written is finite**, and its strings are as before. -/
theorem Json.allScalars_written (h : ∀ bits, Binary64.Finite bits → float bits = true) :
    ∀ j : Json, j.written.allScalars string float = j.allScalars string fun _ => true
  | .null => rfl
  | .boolean _ => rfl
  | .integer _ => rfl
  | .string _ => rfl
  | .float bits => by
    rw [Json.written]
    split_ifs with hfinite
    · exact h bits hfinite
    · rfl
  | .array items => allItems_written h items
  | .object members => allMembers_written h members

theorem allItems_written (h : ∀ bits, Binary64.Finite bits → float bits = true) :
    ∀ items : List Json,
      allItems string float (writtenItems items) = allItems string (fun _ => true) items
  | [] => rfl
  | item :: items => by
    rw [writtenItems, allItems, allItems, item.allScalars_written h, allItems_written h items]

theorem allMembers_written (h : ∀ bits, Binary64.Finite bits → float bits = true) :
    ∀ members : List (Bytes × Json),
      allMembers string float (writtenMembers members) = allMembers string (fun _ => true) members
  | [] => rfl
  | (key, value) :: members => by
    rw [writtenMembers, allMembers, allMembers, value.allScalars_written h,
      allMembers_written h members]

end

mutual

/-- What is finite is written as it is. -/
theorem Json.written_of_allScalars (h : ∀ bits, float bits = true → Binary64.Finite bits) :
    ∀ j : Json, j.allScalars string float = true → j.written = j
  | .null, _ => rfl
  | .boolean _, _ => rfl
  | .integer _, _ => rfl
  | .string _, _ => rfl
  | .float bits, hj => if_pos (h bits hj)
  | .array items, hj => congrArg Json.array (writtenItems_of_allItems h items hj)
  | .object members, hj => congrArg Json.object (writtenMembers_of_allMembers h members hj)

theorem writtenItems_of_allItems (h : ∀ bits, float bits = true → Binary64.Finite bits) :
    ∀ items : List Json, allItems string float items = true → writtenItems items = items
  | [], _ => rfl
  | item :: items, hitems => by
    rw [allItems, Bool.and_eq_true] at hitems
    rw [writtenItems, item.written_of_allScalars h hitems.1,
      writtenItems_of_allItems h items hitems.2]

theorem writtenMembers_of_allMembers (h : ∀ bits, float bits = true → Binary64.Finite bits) :
    ∀ members : List (Bytes × Json), allMembers string float members = true →
      writtenMembers members = members
  | [], _ => rfl
  | (key, value) :: members, hmembers => by
    rw [allMembers, Bool.and_eq_true, Bool.and_eq_true] at hmembers
    rw [writtenMembers, value.written_of_allScalars h hmembers.1.2,
      writtenMembers_of_allMembers h members hmembers.2]

end

end Written

namespace Json

variable {j : Json}

theorem isUtf8_written (j : Json) : j.written.isUtf8 = j.isUtf8 :=
  j.allScalars_written fun _ _ => rfl

theorem isClean_written (j : Json) : j.written.isClean = j.isUtf8 :=
  j.allScalars_written fun _ hfinite => decide_eq_true hfinite

theorem written_of_isClean (h : j.isClean = true) : j.written = j :=
  j.written_of_allScalars (fun _ hfinite => of_decide_eq_true hfinite) h

/-- **What is written as it is** is finite. -/
theorem written_eq_iff (h : j.isUtf8 = true) : j.written = j ↔ j.isClean = true := by
  refine ⟨fun heq => ?_, written_of_isClean⟩
  rw [← heq, isClean_written]
  exact h

theorem lookup_writtenMembers (field : Bytes) (members : List (Bytes × Json)) :
    (writtenMembers members).lookup field = (members.lookup field).map written := by
  induction members with
  | nil => rfl
  | cons member members ih =>
    obtain ⟨key, value⟩ := member
    rw [writtenMembers, List.lookup_cons, List.lookup_cons]
    split
    · rfl
    · exact ih

/-- A member is written where it was. -/
theorem find?_written (j : Json) (field : Bytes) :
    j.written.find? field = (j.find? field).map written := by
  cases j with
  | object members => exact lookup_writtenMembers field members
  | float bits =>
    rw [written]
    split_ifs
    · rfl
    · rfl
  | _ => rfl

end Json

/-- **What is dumped is parsed back as it was written**: a double that is not finite is a `null`. -/
def JsonText.WritesNull (text : JsonText) : Prop :=
  ∀ {j s}, text.dump j = .ok s → text.parse s = .ok j.written

/-- A format that writes `null` for the doubles that are not finite. -/
def JsonText.nulling (text : JsonText) : JsonText where
  parse := text.parse
  read := text.read
  dump j := text.dump j.written
  dumpIndented j := text.dumpIndented j.written
  isUtf8_of_parse := text.isUtf8_of_parse
  dump_ok_iff j := by rw [text.dump_ok_iff, j.isUtf8_written]
  dumpIndented_ok_iff j := by rw [text.dumpIndented_ok_iff, j.isUtf8_written]
  valid_of_dump_error := text.valid_of_dump_error
  parse_dump {j s} hclean h := by
    rw [Json.written_of_isClean hclean] at h
    exact text.parse_dump hclean h
  read_of_parse := text.read_of_parse
  parse_arrayText entries h := text.parse_arrayText entries fun x hx => by
    obtain ⟨hclean, hdump⟩ := h x hx
    rw [Json.written_of_isClean hclean] at hdump
    exact ⟨hclean, hdump⟩

theorem JsonText.writesNull_nulling (text : JsonText) : text.nulling.WritesNull := by
  intro j s h
  have hutf8 := (text.dump_ok_iff j.written).mp ⟨s, h⟩
  rw [j.isUtf8_written] at hutf8
  exact text.parse_dump (j.isClean_written.trans hutf8) h

/-! ### The status of a document -/

namespace Json

variable {data resp : Json}

/-- The data has no status but the one of the protocol. -/
def KeepsStatus (data : Json) : Prop :=
  ∀ v, data.find? Service.status = some v → v = .string Service.success

/-- A value in which a member can be set has members or is nothing. -/
theorem members_of_setMember {field : Bytes} {value : Json}
    (h : data.setMember field value = .ok resp) : data = .null ∨ data.isObject = true := by
  cases data with
  | null => exact Or.inl rfl
  | object members => exact Or.inr rfl
  | _ => cases h

theorem exists_setMember_of_members (h : data = .null ∨ data.isObject = true) (field : Bytes)
    (value : Json) : ∃ resp, data.setMember field value = .ok resp := by
  rcases h with rfl | hobject
  · exact ⟨_, rfl⟩
  · exact exists_setMember hobject field value

/-- Success in the place of success changes no text. -/
theorem KeepsStatus.isUtf8_iff (h : data.KeepsStatus)
    (hset : data.setMember Service.status (.string Service.success) = .ok resp) :
    resp.isUtf8 = true ↔ data.isUtf8 = true := by
  refine ⟨fun hutf8 => ?_, fun hutf8 => Service.isUtf8_of_succeeded hutf8 hset⟩
  cases data with
  | null => rfl
  | object members =>
    obtain rfl := Except.ok.inj hset
    refine isUtf8_object.mpr fun x hx => ?_
    rcases Assoc.mem_set_or_lookup hx with hx | ⟨hkey, hlookup⟩
    · exact isUtf8_object.mp hutf8 x hx
    · rw [hkey, h x.2 hlookup]
      exact ⟨by decide, by decide⟩
  | _ => cases hset

/-- **Every field is told**: the first value has every field of the second one, and no other but
a status. -/
structure Tells (resp data : Json) : Prop where
  field : ∀ field v, data.find? field = some v → resp.find? field = some v
  other : ∀ field v, resp.find? field = some v →
    data.find? field = some v ∨ field = Service.status

/-- **What success leaves of the data**, once it is written. -/
theorem tells_written_iff
    (hset : data.setMember Service.status (.string Service.success) = .ok resp)
    (hutf8 : resp.isUtf8 = true) : resp.written.Tells data ↔
      data.KeepsStatus ∧ ∀ field v, data.find? field = some v → v.isClean = true := by
  have hstatus : resp.find? Service.status = some (.string Service.success) :=
    find?_of_setMember hset
  have hothers {field : Bytes} (hne : field ≠ Service.status) :
      resp.find? field = data.find? field := find?_of_setMember_of_ne hset hne
  constructor
  · intro htells
    have hkeeps : data.KeepsStatus := by
      intro v hv
      have hfound := htells.field _ v hv
      rw [find?_written, hstatus] at hfound
      exact (Option.some.inj hfound).symm
    refine ⟨hkeeps, fun field v hv => ?_⟩
    by_cases hfield : field = Service.status
    · obtain rfl := hkeeps v (hfield ▸ hv)
      decide
    · have hfound := htells.field _ v hv
      rw [find?_written, hothers hfield, hv] at hfound
      have hv' : resp.find? field = some v := (hothers hfield).trans hv
      exact (written_eq_iff (isUtf8_of_find? hutf8 hv')).mp (Option.some.inj hfound)
  · rintro ⟨hkeeps, hclean⟩
    refine ⟨fun field v hv => ?_, fun field v hv => ?_⟩
    · by_cases hfield : field = Service.status
      · obtain rfl := hkeeps v (hfield ▸ hv)
        rw [find?_written, hfield, hstatus]
        rfl
      · rw [find?_written, hothers hfield, hv, Option.map_some,
          written_of_isClean (hclean field v hv)]
    · by_cases hfield : field = Service.status
      · exact Or.inr hfield
      · rw [find?_written, hothers hfield] at hv
        obtain ⟨w, hw, rfl⟩ := Option.map_eq_some_iff.mp hv
        rw [written_of_isClean (hclean field w hw)]
        exact Or.inl hw

end Json

/-! ### Which documents are delivered -/

/-- A payload asks for the document of an id in a collection. -/
def JsonText.AsksFor (text : JsonText) (payload name id : Bytes) : Prop :=
  ∃ req, text.asked payload = .ok (.read_document, req) ∧
    req.stringAt (Bytes.ofText "collection_name") = .ok name ∧
    req.stringAt (Bytes.ofText "document_id") = .ok id

namespace Server

variable (text : JsonText) (codec : Codec) (s : Server) (d : Delivery)

/-- What RocksDB refuses of the read: the first call of the request, or the second where the family
of the collection is looked for before. -/
def readRefusal (name : Bytes) : Option Bytes :=
  if s.Holds name then d.refusals.head else d.refusals.tail.head

/-- **The data is delivered**: there is a reply, and what a client parses has every field of it. -/
def Delivers (data : Json) : Prop :=
  ∃ reply s' resp, s.serve text codec d = (.ret reply, s') ∧ text.parse reply = .ok resp ∧
    resp.Tells data

/-- **The condition**: the pointer to the collection can be used, and the data has members or is
nothing, can be dumped, is finite, and has no status of its own. -/
structure CanDeliver (s : Server) (name : Bytes) (data : Json) : Prop where
  pointer : ¬s.Dangles name
  members : data = .null ∨ data.isObject = true
  isUtf8 : data.isUtf8 = true
  isClean : ∀ field v, data.find? field = some v → v.isClean = true
  status : data.KeepsStatus

variable {text codec s d} {name id : Bytes} {doc : Document}

theorem not_delivers_of_raise {data : Json} {exn : Exn} {s' : Serving}
    (h : s.serve text codec d = (.raise exn, s')) : ¬s.Delivers text codec d data := by
  rintro ⟨reply, s₁, parsed, hreply, -⟩
  cases (Prod.mk.inj (hreply.symm.trans h)).1

/-- What is delivered where success is set in the data. -/
theorem delivers_iff_of_set {data resp : Json} {s' : Serving} (htext : text.WritesNull)
    (hdangles : ¬s.Dangles name)
    (hset : data.setMember Service.status (.string Service.success) = .ok resp)
    (hserve : s.serve text codec d = (.ofExcept ((text.dump resp).mapError Exn.exception), s')) :
    s.Delivers text codec d data ↔ s.CanDeliver name data := by
  rcases hdump : text.dump resp with what | reply
  · rw [hdump] at hserve
    refine iff_of_false (not_delivers_of_raise hserve) fun h => ?_
    -- data that is UTF-8 is so with the status
    have hutf8 : resp.isUtf8 = true := (h.status.isUtf8_iff hset).mpr h.isUtf8
    obtain ⟨reply, hreply⟩ := (text.dump_ok_iff resp).mpr hutf8
    cases hdump.symm.trans hreply
  · rw [hdump] at hserve
    have hutf8 : resp.isUtf8 = true := (text.dump_ok_iff resp).mp ⟨reply, hdump⟩
    have hparse : text.parse reply = .ok resp.written := htext hdump
    have htells := Json.tells_written_iff hset hutf8
    constructor
    · rintro ⟨reply', s₁, parsed, hreply, hparsed, hdelivered⟩
      obtain rfl : reply = reply' := Outcome.ret.inj (Prod.mk.inj (hserve.symm.trans hreply)).1
      obtain rfl : resp.written = parsed := Except.ok.inj (hparse.symm.trans hparsed)
      obtain ⟨hkeeps, hclean⟩ := htells.mp hdelivered
      exact ⟨hdangles, Json.members_of_setMember hset, (hkeeps.isUtf8_iff hset).mp hutf8, hclean,
        hkeeps⟩
    · intro h
      exact ⟨reply, s', resp.written, hserve, hparse, htells.mpr ⟨h.status, h.isClean⟩⟩

/-- What the request for a document that is stored comes to, where its pointer can be used. -/
theorem ends_reading {req : Json}
    (hopening : s.opening req (Service.readArgs req) = .onto name (.inl id))
    (hstored : s.engine.document codec name id = some doc) (hread : s.readRefusal d name = none) :
    Service.Ends (Service.handle_read_document text codec req (text.topic d.payload))
      (s.begun text d) s.engine doc.data_ false := by
  refine Service.ends_read_one (blank_begun text s d) hopening ?_
  refine StorageEngine.readDocument_eq_ok_iff.mpr ⟨?_, hstored⟩
  -- looking the collection up is a call before the read, where the server has no pointer to it
  change Stream'.head (if s.Holds name then d.refusals else d.refusals.tail) = none
  rw [← hread, readRefusal]
  split_ifs
  · rfl
  · rfl

/-- **Which documents are delivered**, in any state and whatever else RocksDB refuses. -/
theorem delivers_iff (htext : text.WritesNull) (hasks : text.AsksFor d.payload name id)
    (hstored : s.engine.document codec name id = some doc) (hread : s.readRefusal d name = none) :
    s.Delivers text codec d doc.data_ ↔ s.CanDeliver name doc.data_ := by
  obtain ⟨req, hasked, hname, hid⟩ := hasks
  have hargs : Service.readArgs req = .ok (.inl id) := by
    rw [Service.readArgs, if_pos (Json.contains_of_stringAt hid), hid]
    rfl
  have hfinds : s.Finds name := Or.inr (Or.inr (StorageEngine.mem_of_document hstored))
  by_cases hdangles : s.Dangles name
  · -- the pointer is followed before anything is read
    refine iff_of_false ?_ fun h => h.pointer hdangles
    rintro ⟨reply, s', resp, hserve, -⟩
    refine not_crashes_of_serve hasked hserve (Service.Crashes.bind ?_)
    have hundefined : s.opening req (Service.readArgs req) = .undefined := by
      rw [opening, hname, hargs]
      simp only [if_pos hfinds, if_pos hdangles]
    exact Service.crashes_of_eq (s := s.begun text d) Service.handle_read_document_eq hundefined
  have hopening : s.opening req (Service.readArgs req) = .onto name (.inl id) :=
    opening_eq_onto_iff.mpr ⟨hname, hfinds, hargs, hdangles⟩
  -- success is set in the data, where that has members
  rcases answers_or_escapes hasked rfl (ends_reading hopening hstored hread) with
    ⟨resp, hset, s', hserve, -⟩ | ⟨⟨exn, hset⟩, what, s', hescapes, -⟩
  · exact delivers_iff_of_set htext hdangles hset hserve
  · refine iff_of_false (not_delivers_of_raise hescapes) fun h => ?_
    obtain ⟨resp, hset'⟩ := Json.exists_setMember_of_members h.members Service.status
      (.string Service.success)
    cases hset.symm.trans hset'

/-! ### Documents with one field -/

/-- The request to store a document in `c`, with a text as a field. -/
def storing (field value : String) : Delivery :=
  .calm ((JsonText.standard.dump (.object [
    (Bytes.ofText "command", .string (Bytes.ofText "create_document")),
    (Bytes.ofText "request_id", .string (Bytes.ofText "1")),
    (Bytes.ofText "collection_name", .string (Bytes.ofText "c")),
    (Bytes.ofText "document_id", .string (Bytes.ofText "a")),
    (Bytes.ofText "content", .object [(Bytes.ofText field, .string (Bytes.ofText value))])])
    ).toOption.getD [])

/-- The request to read it. -/
def reading : Delivery :=
  .ofTexts [("command", "read_document"), ("request_id", "1"), ("collection_name", "c"),
    ("document_id", "a")]

/-- A server that has stored it. -/
def holding (field value : String) : Server :=
  ((started .fresh).after (.named "create_collection" "c")).after (storing field value)

theorem asksFor_reading :
    JsonText.standard.AsksFor reading.payload (Bytes.ofText "c") (Bytes.ofText "a") := by
  obtain ⟨req, hasked, hname⟩ := @exists_asked .read_document reading.payload (Bytes.ofText "c")
    (by decide +kernel) (by decide +kernel)
  refine ⟨req, hasked, hname, ?_⟩
  have hread : (JsonText.standard.asked reading.payload).toOption.bind
      (fun x => (x.2.stringAt (Bytes.ofText "document_id")).toOption) =
        some (Bytes.ofText "a") := by
    decide +kernel
  rw [hasked] at hread
  exact eq_ok_of_toOption hread

/-- A document with a field of another name is delivered. -/
theorem delivers_other : ∃ doc,
    (holding "f" "b").engine.document .standard (Bytes.ofText "c") (Bytes.ofText "a") = some doc ∧
    (holding "f" "b").Delivers (.nulling .standard) .standard reading doc.data_ := by
  have hdata : ((holding "f" "b").engine.document .standard (Bytes.ofText "c")
      (Bytes.ofText "a")).map (fun doc =>
        (doc.data_.isObject, doc.data_.isClean, doc.data_.contains Service.status)) =
          some (true, true, false) := by decide +kernel
  obtain ⟨doc, hstored, hdoc⟩ := Option.map_eq_some_iff.mp hdata
  obtain ⟨hobject, hdoc⟩ := Prod.mk.inj hdoc
  obtain ⟨hclean, hstatus⟩ := Prod.mk.inj hdoc
  have hasks : (JsonText.nulling .standard).AsksFor reading.payload (Bytes.ofText "c")
      (Bytes.ofText "a") := asksFor_reading
  refine ⟨doc, hstored, (delivers_iff (JsonText.writesNull_nulling _) hasks hstored
    (by decide +kernel)).mpr ?_⟩
  refine ⟨by decide +kernel, Or.inr hobject, Json.isUtf8_of_isClean hclean,
    fun field v hv => (Json.allScalars_of_find? hclean hv).2, fun v hv => ?_⟩
  rw [Json.contains, hv] at hstatus
  cases hstatus

/-- **A status of its own is lost**: the client gets the one of the protocol. -/
theorem not_delivers_status : (holding "status" "x").Reachable .standard .standard ∧
    JsonText.standard.AsksFor reading.payload (Bytes.ofText "c") (Bytes.ofText "a") ∧
    ∃ doc, (holding "status" "x").engine.document .standard (Bytes.ofText "c") (Bytes.ofText "a") =
        some doc ∧
      ¬(holding "status" "x").Delivers .standard .standard reading doc.data_ := by
  refine ⟨⟨.fresh, _, rfl, (History.Run.nil.snoc (step_after (by decide +kernel))).snoc
    (step_after (by decide +kernel))⟩, asksFor_reading, ?_⟩
  have hdata : (((holding "status" "x").engine.document .standard (Bytes.ofText "c")
      (Bytes.ofText "a")).bind fun doc => (doc.data_.stringAt Service.status).toOption) =
        some (Bytes.ofText "x") := by decide +kernel
  obtain ⟨doc, hstored, hdoc⟩ := Option.bind_eq_some_iff.mp hdata
  have hreply : (((holding "status" "x").replyTo? reading).bind fun reply =>
      (JsonText.standard.parse reply).toOption.bind fun resp =>
        (resp.stringAt Service.status).toOption) = some Service.success := by decide +kernel
  refine ⟨doc, hstored, ?_⟩
  rintro ⟨reply, s', resp, hserve, hparse, htells⟩
  rw [replyTo?, hserve, Option.bind_some, hparse] at hreply
  have hsuccess : resp.find? Service.status = some (.string Service.success) :=
    Json.find?_of_stringAt (eq_ok_of_toOption hreply)
  have hown := htells.field _ _ (Json.find?_of_stringAt (eq_ok_of_toOption hdoc))
  rw [hsuccess] at hown
  exact absurd (Json.string.inj (Option.some.inj hown)) (by decide)

end Server

end AnuDB
