import AnuDB.Creates
import AnuDB.Delivered
import AnuDB.HandlerFrames

/-!
# Can a client keep track of the documents?

Of the state of the server a client sees requests and the replies to them, and nothing else. It
cannot foresee what a request comes to: RocksDB may refuse a write, and the id of a document may be
generated. But the reply to a request that changes documents says whether it has, and under which
id. So the requests and the replies are enough to know all documents of all collections: a catalog
that follows the requests that have succeeded (`AnuDB.Catalog.follow`) is the one of the database
as long as the server lives, whatever is asked of it (`AnuDB.Server.documents_eq_catalog`).

Names with the delimiter of indexes in them are left out. A collection of such a name may be an
index of another one, and its entries come and go with the documents of that.
-/

namespace AnuDB

open Effect

/-! ### The catalog -/

/-- **The documents of a database**, collection by collection. -/
abbrev Catalog : Type := Bytes → Option DocumentMap

namespace Catalog

/-- The documents of a collection, changed. -/
def edit (m : Catalog) (name : Bytes) (f : DocumentMap → DocumentMap) : Catalog :=
  Function.update m name ((m name).map f)

/-- **What a command that has succeeded has done** to the collection of a name, by the request and
the reply. -/
def carry (m : Catalog) (req resp : Json) (name : Bytes) : Command → Catalog
  | .create_collection => Function.update m name (some fun _ => none)
  | .delete_collection => Function.update m name none
  | .create_document =>
    match resp.stringAt (Bytes.ofText "docId"), req.index (Bytes.ofText "content") with
    | .ok docId, .ok data => m.edit name fun docs => docs.assign docId data
    | _, _ => m
  | .delete_document =>
    match req.stringAt (Bytes.ofText "document_id") with
    | .ok docId => m.edit name fun docs => Function.update docs docId none
    | .error _ => m
  | _ => m

/-- What a command has done, if the reply says that it has succeeded. -/
def heed (m : Catalog) (req resp : Json) (command : Command) : Catalog :=
  match req.stringAt (Bytes.ofText "collection_name") with
  | .ok name =>
    if (resp.stringAt Service.status).toOption = some Service.success then
      m.carry req resp name command
    else m
  | .error _ => m

/-- **What is made of a request and its reply.** -/
def follow (text : JsonText) (m : Catalog) (payload reply : Bytes) : Catalog :=
  match text.asked payload, text.parse reply with
  | .ok (command, req), .ok resp => m.heed req resp command
  | _, _ => m

/-- **The catalog after exchanges.** -/
def after (text : JsonText) (m : Catalog) (history : List (Bytes × Bytes)) : Catalog :=
  history.foldl (fun m x => m.follow text x.1 x.2) m

variable {text : JsonText} {m : Catalog} {payload reply name n : Bytes} {req resp : Json}
  {command : Command}

theorem edit_self (f : DocumentMap → DocumentMap) : m.edit name f name = (m name).map f :=
  Function.update_self ..

theorem carry_of_ne (h : n ≠ name) (command : Command) : m.carry req resp name command n = m n := by
  cases command with
  | create_collection => exact Function.update_of_ne h _ _
  | delete_collection => exact Function.update_of_ne h _ _
  | create_document =>
    rcases hid : resp.stringAt (Bytes.ofText "docId") with exn | docId
    · simp only [carry, hid]
    rcases hdata : req.index (Bytes.ofText "content") with exn | data
    · simp only [carry, hid, hdata]
    · simp only [carry, hid, hdata]
      exact Function.update_of_ne h _ _
  | delete_document =>
    rcases hid : req.stringAt (Bytes.ofText "document_id") with exn | docId
    · simp only [carry, hid]
    · simp only [carry, hid]
      exact Function.update_of_ne h _ _
  | _ => rfl

/-- Nothing is made of what asks for nothing. -/
theorem follow_of_not_asked {complaint : Bytes} (h : text.asked payload = .error complaint) :
    m.follow text payload reply = m := by
  rw [follow, h]

/-- A reply that can be read is looked at. -/
theorem follow_of_asked (hasked : text.asked payload = .ok (command, req))
    (hname : req.stringAt (Bytes.ofText "collection_name") = .ok name)
    (hparse : text.parse reply = .ok resp) : m.follow text payload reply =
      if (resp.stringAt Service.status).toOption = some Service.success then
        m.carry req resp name command
      else m := by
  simp only [follow, hasked, hparse, heed, hname]

/-- **A request is about one collection.** -/
theorem follow_of_ne (hasked : text.asked payload = .ok (command, req))
    (hname : req.stringAt (Bytes.ofText "collection_name") ≠ .ok n) :
    m.follow text payload reply n = m n := by
  rcases hparse : text.parse reply with what | resp
  · simp only [follow, hasked, hparse]
  rcases hname' : req.stringAt (Bytes.ofText "collection_name") with exn | name
  · simp only [follow, hasked, hparse, heed, hname']
  · rw [follow_of_asked hasked hname' hparse]
    split_ifs
    · refine carry_of_ne (fun h => hname ?_) command
      rw [hname', h]
    · rfl

/-- Most requests change no documents. -/
theorem follow_of_carry (hasked : text.asked payload = .ok (command, req))
    (hcarry : ∀ resp name, m.carry req resp name command = m) : m.follow text payload reply = m := by
  rcases hparse : text.parse reply with what | resp
  · simp only [follow, hasked, hparse]
  rcases hname : req.stringAt (Bytes.ofText "collection_name") with exn | name
  · simp only [follow, hasked, hparse, heed, hname]
  · rw [follow_of_asked hasked hname hparse, hcarry, ite_self]

end Catalog

/-! ### What a collection shows -/

/-- **A collection shows documents**: there is a family of its name, and it stands for them; or
there is none, and there are no documents. -/
def Shows (codec : Codec) (docs : Option DocumentMap) (name : Bytes) (e : StorageEngine) : Prop :=
  match docs with
  | none => name ∉ e.columnFamilies_
  | some docs => name ∈ e.columnFamilies_ ∧ Represents codec ⟨name⟩ docs e

/-- **The catalog of a database**, as far as names go that have no delimiter in them. -/
def Catalog.IsOf (codec : Codec) (m : Catalog) (e : StorageEngine) : Prop :=
  ∀ name, ¬index_delimiter_ <:+: name → Shows codec (m name) name e

section Shows

variable {codec : Codec} {name : Bytes} {docs : Option DocumentMap} {e e' : StorageEngine}

/-- What is shown is in the family of the name. -/
theorem Shows.congr (h : Shows codec docs name e) (hcontents : e'.contents name = e.contents name) :
    Shows codec docs name e' := by
  have hmem : name ∈ e'.columnFamilies_ ↔ name ∈ e.columnFamilies_ :=
    StorageEngine.mem_congr hcontents
  rcases docs with _ | docs
  · exact fun hname => h (hmem.mp hname)
  · refine ⟨hmem.mpr h.1, h.2.congr fun id => ?_⟩
    rw [StorageEngine.lookup, StorageEngine.lookup, hcontents]

/-- An empty family shows no documents. -/
theorem shows_empty (h : e.contents name = some ∅) : Shows codec (some fun _ => none) name e := by
  refine ⟨StorageEngine.mem_iff_contents.mpr ?_, represents_empty codec h⟩
  rw [h]
  rfl

/-- **A document call changes what is shown** as it changes the map. -/
theorem Shows.next {w w' : World} (h : Shows codec docs name w.engine) {call : DocumentCall}
    {outcome : Outcome Exn Status} (hrun : (call.perform codec ⟨name⟩).run w = (outcome, w')) :
    Shows codec (docs.map fun docs => docs.next (.document call, outcome)) name w'.engine := by
  have hmem : name ∈ w'.engine.columnFamilies_ ↔ name ∈ w.engine.columnFamilies_ := by
    have hengine := @DocumentCall.run_engine codec ⟨name⟩ w call
    rw [hrun] at hengine
    rw [hengine, StorageEngine.mem_applyAll]
  rcases docs with _ | docs
  · exact fun hname => h (hmem.mp hname)
  · refine ⟨hmem.mpr h.1, h.2.next ⟨w.fates, congrArg Prod.fst hrun, ?_⟩⟩
    exact congrArg (fun x => x.2.engine) hrun

/-- **What is read is what is shown.** -/
theorem Shows.reads (h : Shows codec docs name e) :
    (name ∈ e.columnFamilies_ ↔ docs.isSome = true) ∧
    ∀ id, (seen codec ⟨name⟩ e id).map Document.data_ = docs.bind fun docs => docs id := by
  rcases docs with _ | docs
  · refine ⟨iff_of_false h Bool.false_ne_true, fun id => ?_⟩
    have hnone : e.lookup name id = none := by
      rcases hlookup : e.lookup name id with _ | serialized
      · rfl
      · obtain ⟨cf, hcf, -⟩ := Option.bind_eq_some_iff.mp hlookup
        exact absurd (StorageEngine.mem_iff_contents.mpr (by rw [hcf]; rfl)) h
    rw [seen_eq, StorageEngine.document, hnone]
    rfl
  · refine ⟨iff_of_true h.1 rfl, fun id => ?_⟩
    rw [seen_eq]
    exact (h.2.2 id).symm

end Shows

/-- The catalog of a new database: there is the default family, and it is empty. -/
def Catalog.fresh : Catalog :=
  Function.update (fun _ => none) kDefaultColumnFamilyName (some fun _ => none)

theorem Catalog.isOf_fresh (codec : Codec) : Catalog.fresh.IsOf codec .fresh := by
  intro name _
  by_cases hname : name = kDefaultColumnFamilyName
  · rw [hname, fresh, Function.update_self]
    refine shows_empty ?_
    exact Std.ExtTreeMap.getElem?_insert_self
  · rw [fresh, Function.update_of_ne hname]
    intro hmem
    rcases Std.ExtTreeMap.mem_insert.mp hmem with heq | hmem
    · exact hname (Std.LawfulEqCmp.eq_of_compare heq).symm
    · exact Std.ExtTreeMap.not_mem_empty hmem

namespace Database

variable {db : Database} {e : StorageEngine} {r : Stream' (Option Bytes)} {name : Bytes}

/-- Only indexes go when the object of a name leaves the cache. -/
theorem contents_evicted : (db.evicted e r name).contents name = e.contents name := by
  rw [evicted]
  rcases db.find name with _ | c
  · rfl
  · exact StorageEngine.contents_dropIndexes fun f => (indexFamily_ne name f).symm

end Database

/-! ### What is in a reply -/

namespace Json

/-- A member that is read as a text is one. -/
theorem stringAt_eq_ok_iff {j : Json} {field s : Bytes} (h : j.isObject = true) :
    j.stringAt field = .ok s ↔ j.find? field = some (.string s) := by
  refine ⟨find?_of_stringAt, fun hfind => ?_⟩
  cases j with
  | object members =>
    rw [stringAt, index, hfind]
    rfl
  | _ => cases h

/-- **An object of texts.** -/
def Texts (j : Json) : Prop := ∃ members, j = .object members ∧ ∀ x ∈ members, ∃ s, x.2 = .string s

theorem Texts.isObject {j : Json} (h : j.Texts) : j.isObject = true := by
  obtain ⟨members, rfl, -⟩ := h
  rfl

/-- What can be dumped of texts is parsed back. -/
theorem Texts.isClean {j : Json} (h : j.Texts) (hutf8 : j.isUtf8 = true) : j.isClean = true := by
  obtain ⟨members, rfl, htexts⟩ := h
  refine allMembers_iff.mpr fun x hx => ?_
  obtain ⟨hkey, hvalue⟩ := allMembers_iff.mp hutf8 x hx
  obtain ⟨s, hs⟩ := htexts x hx
  rw [hs] at hvalue ⊢
  exact ⟨hkey, hvalue⟩

end Json

namespace Service

theorem texts_answered (fields : List (Bytes × Bytes)) : (answered fields).Texts := by
  refine ⟨_, rfl, ?_⟩
  have hset (members : List (Bytes × Json)) (h : ∀ x ∈ members, ∃ s, x.2 = .string s) :
      ∀ x ∈ fields.foldl (fun members x => Assoc.set x.1 (.string x.2) members) members,
        ∃ s, x.2 = .string s := by
    induction fields generalizing members with
    | nil => exact h
    | cons field fields ih =>
      refine ih _ fun x hx => ?_
      rcases Assoc.mem_set hx with rfl | hx
      · exact ⟨_, rfl⟩
      · exact h x hx
  exact hset [] fun x hx => absurd hx List.not_mem_nil

theorem texts_complaint (text : Bytes) : (complaint text).Texts := by
  refine ⟨_, rfl, fun x hx => ?_⟩
  rcases List.mem_cons.mp hx with rfl | hx
  · exact ⟨_, rfl⟩
  · rw [List.mem_singleton.mp hx]
    exact ⟨_, rfl⟩

theorem texts_concluded (result : Status) (done : List (Bytes × Bytes)) (failure : Bytes) :
    (concluded result done failure).Texts := by
  rw [concluded]
  split_ifs
  · exact texts_answered _
  · exact texts_answered _

/-- The id in the reply to a document that has been created. -/
theorem find?_docId {result : Status} {id text failure : Bytes} (hok : result.ok = true) :
    (concluded result [(Bytes.ofText "docId", id), (message, text)] failure).find?
      (Bytes.ofText "docId") = some (.string id) := by
  rw [concluded, if_pos hok]
  -- the message comes after it, and is something else
  have hmessage : ∀ x ∈ [(message, text)], x.1 ≠ Bytes.ofText "docId" := by
    intro x hx
    rw [List.mem_singleton.mp hx]
    show message ≠ Bytes.ofText "docId"
    decide
  exact (find?_foldl_set hmessage _).trans (Assoc.lookup_set_self _ _ _)

end Service

/-! ### What a command leaves alone -/

namespace Service

variable {α : Type} {text : JsonText} {codec : Codec} {d : Delivery} {req : Json} {topic n : Bytes}

/-- The family of a name is as it was. -/
def sameFamily (n : Bytes) : Setoid Serving := Setoid.ker fun s => s.engine.contents n

theorem overlooks_sameFamily (n : Bytes) : Overlooks (sameFamily n) :=
  ⟨fun _ _ _ => rfl, fun _ _ _ _ => rfl, fun _ _ => rfl⟩

/-- Calls that do not touch the family. -/
theorem sameFamily_engine {p : Engine α} (hp : p.Uses fun x => ¬x.Touches n) :
    (engine p).Frames (sameFamily n) := by
  intro s
  have hcontents := Engine.contents_run (w := .refusing s.engine s.refusals) hp
  have hleft : ((engine p).run s).2.engine = (p.run (.refusing s.engine s.refusals)).2.engine := rfl
  show s.engine.contents n = ((engine p).run s).2.engine.contents n
  rw [hleft, hcontents]
  rfl

/-- **A command leaves alone the family of a name** that no call of it may touch. -/
theorem sameFamily_handle {command : Command} (hcalls : ∀ name,
    req.stringAt (Bytes.ofText "collection_name") = .ok name → ∀ x, command.Calls name x →
      ¬x.Touches n) : (command.handle text codec d req topic).Frames (sameFamily n) := by
  refine frames_handle (overlooks_sameFamily n) command (fun _ topic payload => ?_) ?_ ?_
  · exact Action.frames_modify fun s => rfl
  · exact sameFamily_engine (Prog.uses_perform.mpr fun h => h)
  · intro name hname α p hp
    exact sameFamily_engine (hp.mono (hcalls name hname))

end Service

/-- Calls on the collection of another name. -/
theorem Call.Within.not_touches {x : Call} {name n : Bytes} (h : x.Within name) (hne : n ≠ name)
    (hn : ¬index_delimiter_ <:+: n) : ¬x.Touches n := by
  intro htouches
  rcases h n htouches with heq | ⟨f, rfl⟩
  · exact hne heq
  · exact hn (delimiter_infix_indexFamily name f)

/-- Calls on indexes. -/
theorem Call.OnIndexes.not_touches {x : Call} {name n : Bytes} (h : x.OnIndexes name)
    (hn : ¬index_delimiter_ <:+: n) : ¬x.Touches n := by
  intro htouches
  obtain ⟨f, rfl⟩ := h n htouches
  exact hn (delimiter_infix_indexFamily name f)

/-! ### What an exchange does to the documents -/

/-- **An exchange**: a request is delivered, and handled, and replied to. -/
def Server.Exchange (text : JsonText) (codec : Codec) (s : Server) (x : Bytes × Bytes)
    (s' : Server) : Prop :=
  ∃ d s₁, d.payload = x.1 ∧ s.serve text codec d = (.ret x.2, s₁) ∧ s' = s₁.toServer

namespace Server

variable {text : JsonText} {codec : Codec} {s : Server} {d : Delivery} {s₁ : Serving}
  {reply n : Bytes} {command : Command} {req resp : Json} {e : StorageEngine} {failed : Bool}
  {m : Catalog}

/-- A family that the command leaves alone is as it was. -/
theorem contents_serve_of_asked (hasked : text.asked d.payload = .ok (command, req))
    (hhandle : (command.handle text codec d req (text.topic d.payload)).Frames
      (Service.sameFamily n)) :
    (s.serve text codec d).2.engine.contents n = s.engine.contents n := by
  have hcaught : (Service.catching (Bytes.ofText "Exception :")
      (command.handle text codec d req (text.topic d.payload))).Frames (Service.sameFamily n) :=
    (Service.overlooks_sameFamily n).catching hhandle
  have hsame := (Service.sameFamily n).iseqv.trans (hcaught (s.begun text d))
    (Service.frames_reply text _ (s.begun text d))
  rw [← serve_of_asked hasked] at hsame
  exact hsame.symm

/-- **A family that no call may touch** is as it was. -/
theorem contents_serve (h : ∀ command req name, text.asked d.payload = .ok (command, req) →
      req.stringAt (Bytes.ofText "collection_name") = .ok name →
      ∀ x, command.Calls name x → ¬x.Touches n) :
    (s.serve text codec d).2.engine.contents n = s.engine.contents n := by
  rcases hasked : text.asked d.payload with complaint | ⟨command, req⟩
  · obtain ⟨s', hserve, hengine, -⟩ := @answers_of_not_asked text codec s d complaint hasked
    rw [hserve, hengine]
  · exact contents_serve_of_asked hasked (Service.sameFamily_handle fun name hname =>
      h command req name hasked hname)

theorem contents_of_serve (hserve : s.serve text codec d = (.ret reply, s₁))
    (hasked : text.asked d.payload = .ok (command, req))
    (hhandle : (command.handle text codec d req (text.topic d.payload)).Frames
      (Service.sameFamily n)) : s₁.engine.contents n = s.engine.contents n := by
  have hleft := contents_serve_of_asked (s := s) hasked hhandle
  rwa [hserve] at hleft

/-- What is answered is replied. -/
theorem Answers.of_serve (h : s.Answers text codec d e resp failed)
    (hserve : s.serve text codec d = (.ret reply, s₁)) :
    s₁.engine = e ∧ text.dump resp = .ok reply := by
  obtain ⟨s', hserve', he, -⟩ := h
  obtain ⟨hreply, rfl⟩ := Prod.mk.inj (hserve.symm.trans hserve')
  refine ⟨he, ?_⟩
  rcases hdump : text.dump resp with what | reply'
  · rw [hdump] at hreply
    cases hreply
  · rw [hdump] at hreply
    rw [Outcome.ret.inj hreply]

/-- **What is made of an answer in texts**: the command is carried out if nothing failed. -/
theorem Answers.follow (h : s.Answers text codec d e resp failed)
    (hserve : s.serve text codec d = (.ret reply, s₁)) (htexts : resp.Texts)
    (hhonest : resp.Honest failed) (hasked : text.asked d.payload = .ok (command, req))
    (hname : req.stringAt (Bytes.ofText "collection_name") = .ok n) :
    s₁.engine = e ∧ m.follow text d.payload reply =
      if failed then m else m.carry req resp n command := by
  obtain ⟨he, hdump⟩ := h.of_serve hserve
  refine ⟨he, ?_⟩
  have hutf8 : resp.isUtf8 = true := (text.dump_ok_iff resp).mp ⟨reply, hdump⟩
  rw [Catalog.follow_of_asked hasked hname (text.parse_dump (htexts.isClean hutf8) hdump)]
  have hstatus : (resp.stringAt Service.status).toOption = some Service.success ↔ failed = false := by
    rw [← hhonest.success_iff, ← Json.stringAt_eq_ok_iff htexts.isObject]
    rcases resp.stringAt Service.status with exn | status
    · exact iff_of_false (by rintro ⟨⟩) (by rintro ⟨⟩)
    · simp [Except.toOption]
  rcases failed with _ | _
  · rw [if_pos (hstatus.mpr rfl)]
    rfl
  · rw [if_neg fun h => absurd (hstatus.mp h) (by decide)]
    rfl

/-- What is replied to has not crashed. -/
theorem not_crashes_of_reply (hserve : s.serve text codec d = (.ret reply, s₁)) :
    ¬s.Crashes text codec d := by
  rintro ⟨u, hu⟩
  rw [hserve] at hu
  cases hu

section Commands

variable (hshows : Shows codec (m n) n s.engine)
  (hserve : s.serve text codec d = (.ret reply, s₁))
  (hname : req.stringAt (Bytes.ofText "collection_name") = .ok n)

include hshows hserve hname

/-- A collection that is created is empty. -/
theorem shows_create_collection (hdb : s.engine.db_ = .opened)
    (hasked : text.asked d.payload = .ok (.create_collection, req)) :
    Shows codec (m.follow text d.payload reply n) n s₁.engine := by
  have hends {result : Status} {o : Objects} {w : World}
      (hrun : (s.objects.createCollection n).run (.refusing s.engine d.refusals) =
        (.ret (result, o), w)) :=
    (answers_of_ends hasked (Service.ends_create_collection (blank_begun text s d) hname hrun)).follow
      (m := m) hserve (Service.texts_concluded _ _ _)
      (Service.honest_concluded (fun _ => Service.ne_status_of_mem_message) (by decide)) hasked hname
  rcases s.engine.createCollection_cases d.refusals.head n with
    ⟨-, -, hclosed⟩ | ⟨status, hc, hok, -⟩ | ⟨hc, -, -, -⟩
  · exact absurd hdb hclosed
  · obtain ⟨_, o', hrun, rfl, -⟩ := Objects.run_of_forget Objects.forget_createCollection
      (Database.run_createCollection_of_not_ok hc hok)
    obtain ⟨he, hfollow⟩ := hends hrun
    rw [hfollow, he, if_pos (by simpa using hok)]
    exact hshows
  · obtain ⟨_, o', hrun, hresult, -⟩ := Objects.run_of_forget Objects.forget_createCollection
      (Database.run_createCollection hc rfl)
    obtain rfl := hresult
    obtain ⟨he, hfollow⟩ := hends hrun
    rw [hfollow, he, if_neg (by decide), Catalog.carry, Function.update_self]
    refine shows_empty ?_
    -- the object of the name leaves the cache, and only its indexes go with it
    refine Database.contents_evicted.trans ?_
    rw [StorageEngine.contents, StorageEngine.columnFamilies_withFamilies hdb,
      Std.ExtTreeMap.getElem?_insert_self]

/-- One that is deleted is gone, or it shows what it showed. -/
theorem shows_delete_collection
    (hasked : text.asked d.payload = .ok (.delete_collection, req)) :
    Shows codec (m.follow text d.payload reply n) n s₁.engine := by
  by_cases hfamily : n ∈ s.engine.columnFamilies_
  case neg =>
    have hraise := Objects.run_dropCollection_of_notMem (o := s.objects) (r := d.refusals) hfamily
    exact absurd (crashes_of_crashes hasked
      (Service.crashes_delete_collection hname (Prod.ext hraise rfl))) (not_crashes_of_reply hserve)
  have hrun := Objects.run_dropCollection_of_mem (o := s.objects) (r := d.refusals) hfamily
  obtain ⟨he, hfollow⟩ := (answers_of_ends hasked
    (Service.ends_delete_collection (blank_begun text s d) hname hrun)).follow (m := m) hserve
      (Service.texts_concluded _ _ _)
      (Service.honest_concluded (fun _ => Service.ne_status_of_mem_message) (by decide)) hasked hname
  rw [hfollow, he]
  by_cases hrefused : s.objects.forget.FamilyRefused s.engine d.refusals n
  · obtain ⟨hok, hengine⟩ := Database.dropCollection_of_refused hfamily hrefused
    rw [hok, Bool.not_false, if_pos rfl]
    refine hshows.congr ?_
    show (StorageEngine.dropCollection _ _ _).2.contents n = _
    rw [hengine]
    exact Database.contents_stripped fun f => (indexFamily_ne n f).symm
  · have hok := Database.dropCollection_of_not_refused hfamily hrefused
    rw [hok, if_neg (by decide), Catalog.carry, Function.update_self]
    obtain ⟨hdefault, hlast⟩ := not_or.mp hrefused
    show n ∉ (StorageEngine.dropCollection _ _ _).2.columnFamilies_
    rw [Option.not_isSome_iff_eq_none.mp hlast]
    exact StorageEngine.not_mem_dropCollection hdefault

/-- **A document call of a command**: what it comes to is told by the reply. -/
theorem shows_callOn {α β : Type} {args : Except Exn α} {call : α → Collection → Engine β}
    {result : β → Status} {done : Bytes → α → β → List (Bytes × Bytes)} {failure : Bytes → Bytes}
    {document : α → DocumentCall} (hasked : text.asked d.payload = .ok (command, req))
    (hhandle : command.handle text codec d req (text.topic d.payload) =
      Service.callOn req args call result done failure)
    (hcall : ∀ a, (document a).perform codec ⟨n⟩ = result <$> call a ⟨n⟩)
    (hdone : ∀ a b, ∀ x ∈ done n a b, x.1 ≠ Service.status) (hfailure : failure n ≠ Service.success)
    (hcarry : ∀ a b w w', args = .ok a → (call a ⟨n⟩).run w = (.ret b, w') →
      (result b).ok = true →
        m.carry req (Service.concluded (result b) (done n a b) (failure n)) n command n =
          (m n).map fun docs => docs.apply (.document (document a))) :
    Shows codec (m.follow text d.payload reply n) n s₁.engine := by
  have hanswers {resp : Json} {e : StorageEngine} {failed : Bool} (h : Service.Ends
      (Service.callOn req args call result done failure) (s.begun text d) e resp failed) :
      s.Answers text codec d e resp failed := answers_of_ends hasked (hhandle ▸ h)
  have hcrashes (h : Service.Crashes (Service.callOn req args call result done failure)
      (s.begun text d)) : False :=
    not_crashes_of_reply hserve (crashes_of_crashes hasked (hhandle ▸ h))
  have hblank := blank_begun text s d
  rcases hopening : s.opening req args with complaint | _ | ⟨name, a⟩
  · -- nothing is done
    obtain ⟨he, hfollow⟩ := (hanswers (Service.ends_of_refused hblank hopening)).follow (m := m)
      hserve (Service.texts_complaint _) (Service.honest_complaint _) hasked hname
    rw [hfollow, he, if_pos rfl]
    exact hshows
  · exact (hcrashes (Service.crashes_of_opening hopening)).elim
  obtain ⟨hname', -, hargs, -⟩ := opening_eq_onto_iff.mp hopening
  obtain rfl := Except.ok.inj (hname.symm.trans hname')
  have hmade {outcome : Outcome Exn β} {w : World} (hrun : (call a ⟨n⟩).run
      (.refusing (s.begun text d).engine ((s.begun text d).looked n).refusals) = (outcome, w)) :
      Shows codec ((m n).map fun docs => docs.next (.document (document a), outcome.map result)) n
        w.engine := by
    refine Shows.next (w := .refusing (s.begun text d).engine ((s.begun text d).looked n).refusals)
      hshows ?_
    rw [hcall, Engine.run, Prog.run_map]
    rw [Engine.run] at hrun
    rw [hrun]
  have hstopped := Engine.run_refusing_ne_stopped (call a ⟨n⟩) (s.begun text d).engine
    ((s.begun text d).looked n).refusals
  rcases hrun : (call a ⟨n⟩).run (.refusing (s.begun text d).engine
    ((s.begun text d).looked n).refusals) with ⟨b | (what | u) | _, w⟩
  · obtain ⟨he, hfollow⟩ := (hanswers (Service.ends_callOn hblank hopening hrun)).follow (m := m)
      hserve (Service.texts_concluded _ _ _) (Service.honest_concluded (hdone a b) hfailure) hasked
      hname
    have hnext := hmade hrun
    rw [hfollow, he]
    rcases hok : (result b).ok with _ | _
    · simp only [Outcome.map, DocumentMap.next, hok, Bool.false_eq_true, if_false, Option.map_id'] at hnext
      exact hnext
    · simp only [Outcome.map, DocumentMap.next, hok, if_true] at hnext
      rw [Bool.not_true, if_neg Bool.false_ne_true, hcarry a b _ w hargs hrun hok]
      exact hnext
  · obtain ⟨he, hfollow⟩ := (hanswers (Service.ends_callOn_of_exception hblank hopening hrun)).follow
      (m := m) hserve (Service.texts_complaint _) (Service.honest_complaint _) hasked hname
    have hnext := hmade hrun
    rw [hfollow, he, if_pos rfl]
    simp only [Outcome.map, DocumentMap.next, Option.map_id'] at hnext
    exact hnext
  · exact (hcrashes (Service.crashes_callOn hopening hrun)).elim
  · exact absurd (congrArg Prod.fst hrun) hstopped

/-- A document that is created is in the catalog under the id that is replied. -/
theorem shows_create_document
    (hasked : text.asked d.payload = .ok (.create_document, req)) :
    Shows codec (m.follow text d.payload reply n) n s₁.engine := by
  have hcall (a : Bytes × Json) : (DocumentCall.create d.entropy ⟨a.1, a.2⟩).perform codec ⟨n⟩ =
      Prod.fst <$> Collection.createDocument codec ⟨n⟩ d.entropy ⟨a.1, a.2⟩ := rfl
  refine shows_callOn hshows hserve hname hasked (Service.handle_create_document_eq codec d req)
    hcall (fun _ _ _ => Service.ne_status_of_mem_docId) (Service.append_ne_success n (by decide)) ?_
  intro a b w w' hargs hrun hok
  have hid : b.2.id_ = DocumentMap.target d.entropy a.1 := by
    rcases Collection.createDocument_cases codec ⟨n⟩ d.entropy ⟨a.1, a.2⟩ w with
      ⟨status, doc', w₁, hrun₁, -, hdoc, -, -⟩ | ⟨hbad, -⟩
    · obtain rfl := Outcome.ret.inj (congrArg Prod.fst (hrun.symm.trans hrun₁))
      exact (withId_assignId hdoc).1
    · have hfalse := hbad b.1 b.2 (congrArg Prod.fst hrun)
      cases hok.symm.trans hfalse
  have hcontent : req.index (Bytes.ofText "content") = .ok a.2 := by
    obtain ⟨docId, -, hargs⟩ := bind_eq_ok_iff.mp hargs
    obtain ⟨data, hdata, hargs⟩ := bind_eq_ok_iff.mp hargs
    obtain rfl := Except.ok.inj hargs
    exact hdata
  rw [Catalog.carry, (Json.stringAt_eq_ok_iff (Service.texts_concluded _ _ _).isObject).mpr
    (Service.find?_docId hok), hcontent]
  simp only [Catalog.edit_self, hid]
  rfl

/-- One that is deleted is not. -/
theorem shows_delete_document
    (hasked : text.asked d.payload = .ok (.delete_document, req)) :
    Shows codec (m.follow text d.payload reply n) n s₁.engine := by
  rcases hid : req.stringAt (Bytes.ofText "document_id") with exn | docId
  · -- no document is named, and nothing is called
    have hnone : (Service.handle_delete_document codec req).Frames (Service.sameFamily n) := by
      refine (Service.overlooks_sameFamily n).onCollection fun name _ => ?_
      split_ifs
      · rw [hid]
        exact Action.frames_raise exn
      · exact Action.frames_pure ()
    have hsame : m.follow text d.payload reply = m :=
      Catalog.follow_of_carry hasked fun resp name => by simp only [Catalog.carry, hid]
    rw [hsame]
    exact hshows.congr (contents_of_serve hserve hasked hnone)
  · have hcontains : req.contains (Bytes.ofText "document_id") = true :=
      Json.contains_of_stringAt hid
    have hcall (docId : Bytes) : (DocumentCall.delete docId).perform codec ⟨n⟩ =
        id <$> Collection.deleteDocument codec ⟨n⟩ docId := (id_map _).symm
    refine shows_callOn hshows hserve hname hasked
      (Service.handle_delete_document_eq codec req hcontains) hcall
      (fun _ _ _ => Service.ne_status_of_mem_docId) (Service.append_ne_success n (by decide)) ?_
    intro a b w w' hargs hrun hok
    obtain rfl := Except.ok.inj (hid.symm.trans hargs)
    simp only [Catalog.carry, hid, Catalog.edit_self]
    rfl

end Commands

/-- **After an exchange, a collection shows what the catalog has.** -/
theorem shows_of_exchange (hdb : s.engine.db_ = .opened) (hn : ¬index_delimiter_ <:+: n)
    (hshows : Shows codec (m n) n s.engine) (hserve : s.serve text codec d = (.ret reply, s₁)) :
    Shows codec (m.follow text d.payload reply n) n s₁.engine := by
  rcases hasked : text.asked d.payload with complaint | ⟨command, req⟩
  · rw [Catalog.follow_of_not_asked hasked, ((answers_of_not_asked hasked).of_serve hserve).1]
    exact hshows
  by_cases hname : req.stringAt (Bytes.ofText "collection_name") = .ok n
  case neg =>
    -- the request is about another collection
    rw [Catalog.follow_of_ne hasked hname]
    refine hshows.congr (contents_of_serve hserve hasked (Service.sameFamily_handle ?_))
    intro name hname' x hx
    exact hx.within.not_touches (fun h => hname (h ▸ hname')) hn
  -- commands that leave the documents alone
  have hleft (hcarry : ∀ resp name, m.carry req resp name command = m)
      (hcalls : ∀ x, command.Calls n x → x.OnIndexes n) :
      Shows codec (m.follow text d.payload reply n) n s₁.engine := by
    rw [Catalog.follow_of_carry hasked hcarry]
    refine hshows.congr (contents_of_serve hserve hasked (Service.sameFamily_handle ?_))
    intro name hname' x hx
    obtain rfl := Except.ok.inj (hname.symm.trans hname')
    exact (hcalls x hx).not_touches hn
  cases command with
  | create_collection => exact shows_create_collection hshows hserve hname hdb hasked
  | delete_collection => exact shows_delete_collection hshows hserve hname hasked
  | create_document => exact shows_create_document hshows hserve hname hasked
  | delete_document => exact shows_delete_document hshows hserve hname hasked
  | _ => exact hleft (fun _ _ => rfl) fun _ hx => hx

/-- An exchange is a step. -/
theorem Exchange.step {x : Bytes × Bytes} {s' : Server} (h : s.Exchange text codec x s') :
    ∃ d, s.Step text codec d s' := by
  obtain ⟨d, s₁, -, hserve, rfl⟩ := h
  refine ⟨d, fun u hu => ?_, by rw [hserve]⟩
  rw [hserve] at hu
  cases hu

/-- **The catalog follows the database**, exchange by exchange. -/
theorem isOf_of_exchanges {e : StorageEngine} (hdb : e.db_ = .opened) (hm : m.IsOf codec e)
    {history : List (Bytes × Bytes)}
    (h : History.Run (Exchange text codec) (started e) history s) :
    (m.after text history).IsOf codec s.engine := by
  have hboth : s.engine.db_ = .opened ∧ (m.after text history).IsOf codec s.engine := by
    refine h.simulates (R := fun (m : Catalog) (s : Server) =>
      s.engine.db_ = .opened ∧ m.IsOf codec s.engine) ⟨hdb, hm⟩ ?_
    rintro m s x s' ⟨hdb, hm⟩ hexchange
    obtain ⟨d, hstep⟩ := hexchange.step
    obtain ⟨d, s₁, hpayload, hserve, rfl⟩ := hexchange
    refine ⟨hstep.opened hdb, fun n hn => ?_⟩
    rw [← hpayload]
    exact shows_of_exchange hdb hn (hm n hn) hserve
  exact hboth.2

/-- **A client that follows requests and replies knows the documents**: after any exchanges, with
anything refused in them, a collection is there if the catalog has it, and what is read from it is
what the catalog has. -/
theorem documents_eq_catalog {e : StorageEngine} (hdb : e.db_ = .opened) (hm : m.IsOf codec e)
    {history : List (Bytes × Bytes)}
    (h : History.Run (Exchange text codec) (started e) history s)
    (hn : ¬index_delimiter_ <:+: n) :
    (n ∈ s.engine.columnFamilies_ ↔ (m.after text history n).isSome = true) ∧
    ∀ id, (seen codec ⟨n⟩ s.engine id).map Document.data_ =
      (m.after text history n).bind fun docs => docs id :=
  (isOf_of_exchanges hdb hm h n hn).reads

/-- A document is stored and is in the catalog, of which the client knows at first that there is
the default family only. -/
theorem documents_eq_catalog_holding : ∃ reply reply' data,
    ((Catalog.fresh.after .standard [((Delivery.named "create_collection" "c").payload, reply),
      ((storing "f" "b").payload, reply')] (Bytes.ofText "c")).bind fun docs =>
        docs (Bytes.ofText "a")) = some data ∧
    (seen .standard letterC (holding "f" "b").engine (Bytes.ofText "a")).map Document.data_ =
      some data := by
  obtain ⟨reply, hreply⟩ : ∃ reply,
      (started .fresh).replyTo? (.named "create_collection" "c") = some reply :=
    Option.isSome_iff_exists.mp (by decide +kernel)
  obtain ⟨reply', hreply'⟩ : ∃ reply, ((started .fresh).after
      (.named "create_collection" "c")).replyTo? (storing "f" "b") = some reply :=
    Option.isSome_iff_exists.mp (by decide +kernel)
  have h : History.Run (Exchange .standard .standard) (started .fresh)
      [((Delivery.named "create_collection" "c").payload, reply),
        ((storing "f" "b").payload, reply')] (holding "f" "b") :=
    (History.Run.nil.snoc ⟨_, _, rfl, serve_of_replyTo? hreply, rfl⟩).snoc
      ⟨_, _, rfl, serve_of_replyTo? hreply', rfl⟩
  have hdocuments := (documents_eq_catalog rfl (Catalog.isOf_fresh _) h (n := Bytes.ofText "c")
    (by decide)).2 (Bytes.ofText "a")
  have hsome : ((seen .standard letterC (holding "f" "b").engine (Bytes.ofText "a")).map
      Document.data_).isSome = true := by
    rw [seen_eq]
    decide +kernel
  obtain ⟨data, hdata⟩ := Option.isSome_iff_exists.mp hsome
  exact ⟨reply, reply', data, hdocuments.symm.trans hdata, hdata⟩

end Server

end AnuDB
