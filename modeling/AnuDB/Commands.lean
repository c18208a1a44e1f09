import AnuDB.Readers

/-!
# Do the commands do what they name?

Ten of the commands name a call of the database, or reading it: with the request in hand it is
known which call that is (`AnuDB.Command.names?`). The handler looks its collection up in the
server's own pointers first, and a call on the database does so in the database's cache; then it
is the same call, made on the same engine, with the same refusals ahead of it. So what is left is
the same (`AnuDB.Server.CarriesOut`), for all commands but `delete_index`, whose handler creates
an index; that is right where there is no collection, and nowhere else.

A pointer that dangles is used all the same, so a request comes to nothing there whatever it
names (`AnuDB.Server.carriesOut_iff`).
-/

namespace AnuDB

open Effect

/-! ### The database stays open -/

namespace Objects

variable {o : Objects} {name : Bytes}

theorem keepsHandle_createCollection : (o.createCollection name).Uses Call.KeepsHandle := by
  have h := @Database.keepsHandle_createCollection o.forget name
  rw [← forget_createCollection] at h
  exact Prog.uses_map.mp h

theorem keepsHandle_getCollection : (o.getCollection name).Uses Call.KeepsHandle := by
  have h := (@Database.onFamily_getCollection o.forget name).mono fun x h => h.keepsHandle
  rw [← forget_getCollection] at h
  exact Prog.uses_map.mp h

theorem keepsHandle_dropCollection : (o.dropCollection name).Uses Call.KeepsHandle := by
  have h := @Database.keepsHandle_dropCollection o.forget name
  rw [← forget_dropCollection] at h
  exact Prog.uses_map.mp h

/-- On an open engine, creating a collection returns. -/
theorem exists_run_createCollection (o : Objects) (name : Bytes) (r : Stream' (Option Bytes))
    {e : StorageEngine} (hdb : e.db_ = .opened) : ∃ result o' w,
      (o.createCollection name).run (.refusing e r) = (.ret (result, o'), w) := by
  rcases e.createCollection_cases r.head name with
    ⟨-, -, hclosed⟩ | ⟨status, hc, hok, -⟩ | ⟨hc, -⟩
  · exact absurd hdb hclosed
  · obtain ⟨result, o', hrun, -⟩ := run_of_forget (forget_createCollection (o := o))
      (Database.run_createCollection_of_not_ok hc hok)
    exact ⟨result, o', _, hrun⟩
  · obtain ⟨result, o', hrun, -⟩ := run_of_forget (forget_createCollection (o := o))
      (Database.run_createCollection hc rfl)
    exact ⟨result, o', _, hrun⟩

end Objects

namespace Service

/-- What is known of a server on an open engine. -/
abbrev Opened : Known := fun _ e _ => e.db_ = .opened

theorem steady_opened {α : Type} {p : Engine α} (hp : p.Uses Call.KeepsHandle) :
    Steady Opened p := fun _ e r _ hdb => (Engine.db_run (w := .refusing e r) hp).trans hdb

theorem upholds_database_opened {α : Type} {method : Objects → Engine (α × Objects)}
    (hmethod : ∀ o, (method o).Uses Call.KeepsHandle) :
    (database method).Upholds (On Opened) Opened := by
  refine triple_database (fun s a o w hs hrun => ?_) fun s e w hs hrun _ => ?_
  · have hsteady := steady_opened (hmethod s.objects) s.objects s.engine s.refusals s.collMap_ hs
    rwa [hrun] at hsteady
  · have hsteady := steady_opened (hmethod s.objects) s.objects s.engine s.refusals s.collMap_ hs
    rwa [hrun] at hsteady

theorem upholds_lookup_opened (name : Bytes) : (lookup name).Upholds (On Opened) Opened := by
  refine Action.Triple.get_bind fun s hs => ?_
  split_ifs
  · exact Action.Triple.pure fun s' hs' => hs' ▸ hs
  · refine Action.Triple.bind (Q := fun _ => On Opened) ?_ fun found => ?_
    · refine (upholds_database_opened fun o => Objects.keepsHandle_getCollection).mono ?_
        (fun _ _ h => h) fun _ _ h => h
      exact fun s' hs' => hs' ▸ hs
    · cases found with
      | none => exact Action.Triple.pure fun _ h => h
      | some p =>
        exact Action.Triple.bind (upholds_modify fun _ h => h) fun _ => Action.Triple.pure fun _ h => h

/-- No command opens or closes the database. -/
theorem upholds_opened {text : JsonText} {codec : Codec} {d : Delivery} {req : Json}
    {topic : Bytes} (command : Command) :
    (command.handle text codec d req topic).Upholds (On Opened) Opened := by
  by_cases hcreate : command = .create_collection
  · subst hcreate
    refine upholds_catching (upholds_ofExcept_bind (fun _ hs => hs) fun name => ?_)
    refine Action.Triple.bind (upholds_database_opened fun o =>
      Objects.keepsHandle_createCollection) fun result => ?_
    refine Action.Triple.bind (upholds_modify fun _ hs => hs) fun _ => ?_
    split_ifs
    · refine Action.Triple.bind (upholds_database_opened fun o =>
        Objects.keepsHandle_getCollection) fun pointer => ?_
      exact Action.Triple.bind (upholds_modify fun _ hs => hs) fun _ => upholds_answer _
    · exact upholds_answer _
  by_cases hdelete : command = .delete_collection
  · subst hdelete
    refine upholds_catching (upholds_ofExcept_bind (fun _ hs => hs) fun name => ?_)
    refine Action.Triple.bind (upholds_database_opened fun o =>
      Objects.keepsHandle_dropCollection) fun result => ?_
    refine Action.Triple.bind (upholds_modify fun _ hs => hs) fun _ => ?_
    split_ifs
    · exact Action.Triple.bind (upholds_modify fun _ hs => hs) fun _ => upholds_answer _
    · exact upholds_answer _
  · exact upholds_handle (fun _ hp => steady_opened hp) upholds_lookup_opened hcreate hdelete

end Service

namespace Server

variable {text : JsonText} {codec : Codec} {s s' : Server} {d : Delivery}

theorem Step.opened (h : s.Step text codec d s') (hs : s.engine.db_ = .opened) :
    s'.engine.db_ = .opened := by
  rcases hasked : text.asked d.payload with complaint | ⟨command, req⟩
  · refine h.of_upholds (J := Service.Opened) (serve_of_not_asked hasked) (Action.Triple.pure ?_)
    rintro s rfl
    exact hs
  · refine h.of_upholds (J := Service.Opened) (serve_of_asked hasked) (Service.upholds_catching ?_)
    refine (Service.upholds_opened command).mono ?_ (fun _ _ h => h) fun _ _ h => h
    rintro s rfl
    exact hs

/-- **In every state that is reached, the database is open.** -/
theorem Reachable.opened (h : s.Reachable text codec) : s.engine.db_ = .opened := by
  obtain ⟨e, history, he, hrun⟩ := h
  refine hrun.invariant (I := fun s : Server => s.engine.db_ = .opened) he ?_
  intro s d s' hs hstep
  exact hstep.opened hs

end Server

/-! ### What the commands name -/

/-- The calls of the database that commands name. -/
inductive DatabaseCall where
  | createCollection (name : Bytes) : DatabaseCall
  | dropCollection (name : Bytes) : DatabaseCall
  /-- A call on the collection of a name, if there is one. -/
  | onCollection (name : Bytes) (call : CollectionCall) : DatabaseCall
  /-- No call that changes anything. -/
  | nothing : DatabaseCall

/-- The call, made. -/
def DatabaseCall.perform (codec : Codec) (db : Database) : DatabaseCall → Engine Unit
  | .createCollection name => (fun _ => ()) <$> db.createCollection name
  | .dropCollection name => (fun _ => ()) <$> db.dropCollection name
  | .onCollection name call => do
    let (col, _) ← db.getCollection name
    match col with
    | some c => (fun _ => ()) <$> (call.operation c).perform codec
    | none => pure ()
  | .nothing => pure ()

/-- **The call a request names**, where its members are of the types they should be; new documents
have ids that may be generated. -/
def Command.names? (req : Json) : Command → Option (Entropy → DatabaseCall)
  | create_collection => do
    let name ← (req.stringAt (Bytes.ofText "collection_name")).toOption
    return fun _ => .createCollection name
  | delete_collection => do
    let name ← (req.stringAt (Bytes.ofText "collection_name")).toOption
    return fun _ => .dropCollection name
  | create_document => do
    let name ← (req.stringAt (Bytes.ofText "collection_name")).toOption
    let (docId, data) ← (Service.createArgs req).toOption
    return fun entropy => .onCollection name (.document (.create entropy ⟨docId, data⟩))
  | delete_document => do
    let name ← (req.stringAt (Bytes.ofText "collection_name")).toOption
    let docId ← (req.stringAt (Bytes.ofText "document_id")).toOption
    return fun _ => .onCollection name (.document (.delete docId))
  | create_index => do
    let name ← (req.stringAt (Bytes.ofText "collection_name")).toOption
    let field ← (req.stringAt (Bytes.ofText "field")).toOption
    return fun _ => .onCollection name (.createIndex field)
  | delete_index => do
    let name ← (req.stringAt (Bytes.ofText "collection_name")).toOption
    let field ← (req.stringAt (Bytes.ofText "field")).toOption
    return fun _ => .onCollection name (.deleteIndex field)
  | get_collections => some fun _ => .nothing
  | get_indexes | read_document | find_documents => do
    let _ ← (req.stringAt (Bytes.ofText "collection_name")).toOption
    return fun _ => .nothing
  | export_collection => none

namespace Server

variable (text : JsonText) (codec : Codec) (s : Server) (d : Delivery)

/-- The reply says that the request has been carried out. -/
def Succeeds : Prop :=
  (s.serve text codec d).2.resp.find? Service.status = some (.string Service.success)

/-- **A request does what a call does.** -/
structure CarriesOut (call : DatabaseCall) : Prop where
  /-- What is in the database then is what is there after the call. -/
  engine_eq : ∀ s', s.Step text codec d s' → s'.engine =
    ((call.perform codec s.objects.forget).run (.refusing s.engine d.refusals)).2.engine
  /-- There is undefined behaviour only where the call has it. -/
  undefined : s.Crashes text codec d → ∃ u,
    ((call.perform codec s.objects.forget).run (.refusing s.engine d.refusals)).1 =
      .raise (.undefined u)
  /-- An index that has been deleted with success is not listed. -/
  unlisted : ∀ name field s', call = .onCollection name (.deleteIndex field) →
    s.Succeeds text codec d → s.Step text codec d s' → field ∉ s'.engine.getIndexNames name

end Server

/-- A member that is a string is there. -/
theorem Json.contains_of_stringAt {j : Json} {field text : Bytes} (h : j.stringAt field = .ok text) :
    j.contains field = true := by
  obtain ⟨v, hindex, hstring⟩ := bind_eq_ok_iff.mp h
  cases j with
  | null =>
    obtain rfl := Except.ok.inj hindex
    cases hstring
  | object members =>
    rw [contains]
    rcases hfind : (object members).find? field with _ | w
    · rw [index, hfind] at hindex
      obtain rfl := Except.ok.inj hindex
      cases hstring
    · rfl
  | _ => cases hindex

/-! ### Calls on a collection -/

section OnCollection

variable {codec : Codec} {s : Serving} {name : Bytes}

/-- What is found without dangling is found in the database, with the refusals that are left when
it has been looked up. -/
theorem Serving.run_getCollection_of_finds (hfinds : s.Finds name) (hdangles : ¬s.Dangles name) :
    ∃ db, (s.objects.forget.getCollection name).run (.refusing s.engine s.refusals) =
      (.ret (some ⟨name⟩, db), .refusing s.engine (s.looked name).refusals) := by
  rcases hfind : s.objects.find name with _ | p
  · -- no object is held, so there is no pointer, and there is a family
    have hname : name ∉ s.collMap_ := by
      intro hname
      refine hdangles ⟨hname, ?_⟩
      rw [hfind]
      exact or_iff_not_imp_left.mpr id
    have hholds : ¬s.Holds name := not_or.mpr ⟨hname, not_not.mpr hfind⟩
    have hfamily : name ∈ s.engine.columnFamilies_ :=
      (hfinds.resolve_left hname).resolve_left (· hfind)
    have hfind' : s.objects.forget.find name = none := by
      rw [Objects.find_forget, hfind]
      rfl
    have hrun := Database.run_getCollection (e := s.engine) (r := s.refusals) hfind'
    rw [if_pos hfamily] at hrun
    have hleft : (s.looked name).refusals = s.refusals.tail := if_neg hholds
    rw [hleft]
    exact ⟨_, hrun⟩
  · have hholds : s.Holds name := Or.inr (by simp [hfind])
    have hfind' : s.objects.forget.find name = some ⟨name⟩ := by
      rw [Objects.find_forget, hfind, Option.map_some, Objects.name_of_find hfind]
    have hrun := Database.run_getCollection_of_cached (e := s.engine) (r := s.refusals) hfind'
    have hleft : (s.looked name).refusals = s.refusals := if_pos hholds
    rw [hleft]
    exact ⟨_, hrun⟩

/-- What is not found is not found in the database. -/
theorem Serving.run_getCollection_of_not_finds (hfinds : ¬s.Finds name) :
    ∃ db r, (s.objects.forget.getCollection name).run (.refusing s.engine s.refusals) =
      (.ret (none, db), .refusing s.engine r) := by
  have hfind : s.objects.find name = none := by
    by_contra h
    exact hfinds (Or.inr (Or.inl h))
  have hfamily : name ∉ s.engine.columnFamilies_ := fun h => hfinds (Or.inr (Or.inr h))
  have hfind' : s.objects.forget.find name = none := by
    rw [Objects.find_forget, hfind]
    rfl
  have hrun := Database.run_getCollection (e := s.engine) (r := s.refusals) hfind'
  rw [if_neg hfamily] at hrun
  exact ⟨_, _, hrun⟩

variable (codec) (call : CollectionCall)

/-- The call, on a collection that is found. -/
theorem DatabaseCall.run_onCollection_of_finds (hfinds : s.Finds name)
    (hdangles : ¬s.Dangles name) :
    ((DatabaseCall.onCollection name call).perform codec s.objects.forget).run
        (.refusing s.engine s.refusals) =
      (((fun _ => ()) <$> (call.operation ⟨name⟩).perform codec : Engine Unit).run
        (.refusing s.engine (s.looked name).refusals)) := by
  obtain ⟨db, hrun⟩ := Serving.run_getCollection_of_finds hfinds hdangles
  rw [perform, Engine.run_bind_of_ret hrun]

/-- No call, where it is not found. -/
theorem DatabaseCall.run_onCollection_of_not_finds (hfinds : ¬s.Finds name) :
    ∃ r, ((DatabaseCall.onCollection name call).perform codec s.objects.forget).run
        (.refusing s.engine s.refusals) = (.ret (), .refusing s.engine r) := by
  obtain ⟨db, r, hrun⟩ := Serving.run_getCollection_of_not_finds hfinds
  refine ⟨r, ?_⟩
  rw [perform, Engine.run_bind_of_ret hrun]
  rfl

end OnCollection

namespace Server

variable {text : JsonText} {codec : Codec} {s : Server} {d : Delivery} {command : Command}
  {req resp : Json} {e : StorageEngine} {failed : Bool} {name : Bytes}

theorem Answers.step (h : s.Answers text codec d e resp failed) :
    s.Step text codec d (s.serve text codec d).2.toServer :=
  ⟨fun u hu => h.not_crashes ⟨u, hu⟩, rfl⟩

theorem Answers.succeeds_iff (h : s.Answers text codec d e resp failed) :
    s.Succeeds text codec d ↔
      resp.find? Service.status = some (.string Service.success) := by
  obtain ⟨s', hserve, -, hresp, -⟩ := h
  rw [Succeeds, hserve, ← hresp]

/-- What can be computed of a reply that says so. -/
theorem succeeds_of_getString (h : ((s.serve text codec d).2.resp.find? Service.status).bind
    (fun v => v.getString.toOption) = some Service.success) : s.Succeeds text codec d := by
  obtain ⟨v, hfind, hstring⟩ := Option.bind_eq_some_iff.mp h
  rw [Succeeds, hfind]
  cases v with
  | string s => exact congrArg (some ∘ Json.string) (Option.some.inj hstring)
  | _ => cases hstring

/-- Nothing is to be changed, and nothing is. -/
theorem CarriesOut.of_nothing (hengine : ∀ s', s.Step text codec d s' → s'.engine = s.engine)
    (hcrashes : ¬s.Crashes text codec d) : s.CarriesOut text codec d .nothing where
  engine_eq := hengine
  undefined h := absurd h hcrashes
  unlisted _ _ _ h := by cases h

theorem Answers.carriesOut (h : s.Answers text codec d s.engine resp failed) :
    s.CarriesOut text codec d .nothing :=
  .of_nothing (fun _ => h.engine_eq) h.not_crashes

/-- **No collection, and no call.** -/
theorem carriesOut_of_not_finds {body : Bytes → Service Unit} {call : CollectionCall}
    (hasked : text.asked d.payload = .ok (command, req))
    (hhandle : command.handle text codec d req (text.topic d.payload) =
      Service.onCollection req body)
    (hname : req.stringAt (Bytes.ofText "collection_name") = .ok name) (hfinds : ¬s.Finds name) :
    s.CarriesOut text codec d (.onCollection name call) := by
  have hanswers := answers_of_ends hasked
    (hhandle ▸ Service.ends_of_not_finds (blank_begun text s d) hname hfinds)
  obtain ⟨r, hrun⟩ := DatabaseCall.run_onCollection_of_not_finds (s := s.begun text d) codec call hfinds
  refine ⟨fun s' hstep => ?_, fun h => absurd h hanswers.not_crashes, fun _ _ _ _ hsucceeds _ => ?_⟩
  · rw [hanswers.engine_eq hstep]
    exact (congrArg (fun x => x.2.engine) hrun).symm
  · rw [hanswers.succeeds_iff, Service.find?_complaint] at hsucceeds
    exact absurd (Json.string.inj (Option.some.inj hsucceeds)) (by decide)

/-- **The handler makes the call that is named**, on the collection that is found. -/
theorem carriesOut_of_onto {α β : Type} {args : Except Exn α} {a : α}
    {call : α → Collection → Engine β} {result : β → Status}
    {done : Bytes → α → β → List (Bytes × Bytes)} {failure : Bytes → Bytes}
    {named : CollectionCall} (hasked : text.asked d.payload = .ok (command, req))
    (hhandle : command.handle text codec d req (text.topic d.payload) =
      Service.callOn req args call result done failure)
    (hopening : s.opening req args = .onto name a)
    (hcall : (fun _ => ()) <$> call a ⟨name⟩ =
      ((fun _ => ()) <$> (named.operation ⟨name⟩).perform codec : Engine Unit))
    (hnamed : ∀ field, named ≠ .deleteIndex field) :
    s.CarriesOut text codec d (.onCollection name named) := by
  obtain ⟨-, hfinds, -, hdangles⟩ := opening_eq_onto_iff.mp hopening
  have hrun := DatabaseCall.run_onCollection_of_finds (s := s.begun text d) codec named hfinds hdangles
  rw [← hcall, Engine.run, Engine.run, Prog.run_map] at hrun
  have hunlisted : ∀ n field s', DatabaseCall.onCollection name named =
      .onCollection n (.deleteIndex field) → s.Succeeds text codec d → s.Step text codec d s' →
        field ∉ s'.engine.getIndexNames n := by
    intro n field s' h
    exact absurd (DatabaseCall.onCollection.inj h).2 (hnamed field)
  have hstopped := Engine.run_refusing_ne_stopped (call a ⟨name⟩) (s.begun text d).engine
    ((s.begun text d).looked name).refusals
  rcases hmade : Prog.run World.handle (call a ⟨name⟩)
    (.refusing (s.begun text d).engine ((s.begun text d).looked name).refusals) with
    ⟨b | (what | u) | _, w⟩
  · have hanswers := answers_of_ends hasked
      (hhandle ▸ Service.ends_callOn (blank_begun text s d) hopening hmade)
    refine ⟨fun s' hstep => ?_, fun h => absurd h hanswers.not_crashes, hunlisted⟩
    rw [hanswers.engine_eq hstep]
    exact (congrArg (fun x => x.2.engine) (hrun.trans (by rw [hmade]))).symm
  · have hanswers := answers_of_ends hasked
      (hhandle ▸ Service.ends_callOn_of_exception (blank_begun text s d) hopening hmade)
    refine ⟨fun s' hstep => ?_, fun h => absurd h hanswers.not_crashes, hunlisted⟩
    rw [hanswers.engine_eq hstep]
    exact (congrArg (fun x => x.2.engine) (hrun.trans (by rw [hmade]))).symm
  · obtain ⟨u', hcrash⟩ := crashes_of_crashes hasked (hhandle ▸ Service.crashes_callOn hopening hmade)
    refine ⟨fun s' hstep => absurd hcrash (hstep.1 u'), fun _ => ⟨u, ?_⟩, hunlisted⟩
    exact congrArg Prod.fst (hrun.trans (by rw [hmade]))
  · exact absurd (congrArg Prod.fst hmade) hstopped

/-- The beginning of a request whose members are of the types they should be. -/
theorem opening_cases {α : Type} {args : Except Exn α} {a : α}
    (hname : req.stringAt (Bytes.ofText "collection_name") = .ok name) (hargs : args = .ok a) :
    ¬s.Finds name ∧ (∃ complaint, s.opening req args = .refused complaint) ∨
      s.opening req args = .undefined ∨ s.opening req args = .onto name a := by
  rw [opening, hname, hargs]
  by_cases hfinds : s.Finds name
  · simp only [hfinds, if_true]
    by_cases hdangles : s.Dangles name
    · simp [hdangles]
    · simp [hdangles]
  · simp [hfinds]

/-- A method of the database that is named is called, and returns. -/
theorem carriesOut_of_ret (method : Objects → Engine (Status × Objects))
    {method' : Database → Engine (Status × Database)} {call : DatabaseCall}
    (hmethod : ∀ o, Prod.map id Objects.forget <$> method o = method' o.forget)
    (hcall : ∀ db, call.perform codec db = (fun _ => ()) <$> method' db)
    (hne : ∀ name field, call ≠ .onCollection name (.deleteIndex field))
    {result : Status} {o : Objects} {w : World}
    (hrun : (method s.objects).run (.refusing s.engine d.refusals) = (.ret (result, o), w))
    (hanswers : s.Answers text codec d w.engine resp failed) : s.CarriesOut text codec d call := by
  refine ⟨fun s' hstep => ?_, fun h => absurd h hanswers.not_crashes,
    fun n field _ h => absurd h (hne n field)⟩
  have hforget := Objects.run_forget (hmethod s.objects) (.refusing s.engine d.refusals)
  rw [hrun] at hforget
  rw [hanswers.engine_eq hstep, hcall, Engine.run, Prog.run_map]
  rw [Engine.run] at hforget
  rw [hforget]

/-- **Where the condition is met, the command does what it names.** -/
theorem carriesOut_create_collection (hdb : s.engine.db_ = .opened)
    (hasked : text.asked d.payload = .ok (.create_collection, req))
    (hname : req.stringAt (Bytes.ofText "collection_name") = .ok name) :
    s.CarriesOut text codec d (.createCollection name) := by
  obtain ⟨result, o, w, hrun⟩ := s.objects.exists_run_createCollection name d.refusals hdb
  have hends := Service.ends_create_collection (blank_begun text s d) hname hrun
  exact carriesOut_of_ret (fun o => o.createCollection name)
    (fun o => Objects.forget_createCollection) (fun db => rfl) (fun _ _ h => by cases h) hrun
    (answers_of_ends hasked hends)

theorem carriesOut_delete_collection
    (hasked : text.asked d.payload = .ok (.delete_collection, req))
    (hname : req.stringAt (Bytes.ofText "collection_name") = .ok name) :
    s.CarriesOut text codec d (.dropCollection name) := by
  by_cases hfamily : name ∈ s.engine.columnFamilies_
  · have hrun := Objects.run_dropCollection_of_mem (o := s.objects) (r := d.refusals) hfamily
    have hends := Service.ends_delete_collection (blank_begun text s d) hname hrun
    exact carriesOut_of_ret (fun o => o.dropCollection name)
      (fun o => Objects.forget_dropCollection) (fun db => rfl) (fun _ _ h => by cases h) hrun
      (answers_of_ends hasked hends)
  · have hraise := Objects.run_dropCollection_of_notMem (o := s.objects) (r := d.refusals) hfamily
    have hnamed := @Database.run_dropCollection_of_notMem s.objects.forget _
      d.refusals _ hfamily
    obtain ⟨u, hcrash⟩ := crashes_of_crashes hasked
      (Service.crashes_delete_collection hname (Prod.ext hraise rfl))
    refine ⟨fun s' hstep => absurd hcrash (hstep.1 u), fun _ => ⟨.nullCollection, ?_⟩,
      fun _ _ _ h => by cases h⟩
    rw [DatabaseCall.perform, Engine.run, Prog.run_map]
    rw [Engine.run] at hnamed
    rw [hnamed]
    rfl

/-- A request on a collection whose members are of the types they should be, and nothing is
undefined before the call. -/
theorem carriesOut_onCollection {α β : Type} {args : Except Exn α} {a : α}
    {call : α → Collection → Engine β} {result : β → Status}
    {done : Bytes → α → β → List (Bytes × Bytes)} {failure : Bytes → Bytes}
    {named : CollectionCall} (hasked : text.asked d.payload = .ok (command, req))
    (hhandle : command.handle text codec d req (text.topic d.payload) =
      Service.callOn req args call result done failure)
    (hname : req.stringAt (Bytes.ofText "collection_name") = .ok name) (hargs : args = .ok a)
    (hopening : s.opening req args ≠ .undefined)
    (hcall : (fun _ => ()) <$> call a ⟨name⟩ =
      ((fun _ => ()) <$> (named.operation ⟨name⟩).perform codec : Engine Unit))
    (hnamed : ∀ field, named ≠ .deleteIndex field) :
    s.CarriesOut text codec d (.onCollection name named) := by
  rcases opening_cases (s := s) hname hargs with ⟨hfinds, -⟩ | hundefined | honto
  · exact carriesOut_of_not_finds hasked hhandle hname hfinds
  · exact absurd hundefined hopening
  · exact carriesOut_of_onto hasked hhandle honto hcall hnamed

end Server

/-! ### The commands that read -/

namespace Service

variable {text : JsonText} {codec : Codec} {req : Json} {topic : Bytes} {s : Serving}

/-- Reading leaves the engine, unless there is undefined behaviour before it. -/
theorem ends_read (hcodec : codec.ThrowsText) (hs : s.Blank)
    (h : s.opening req (readArgs req) ≠ .undefined) : ∃ resp failed,
      Ends (handle_read_document text codec req topic) s s.engine resp failed := by
  rcases hopening : s.opening req (readArgs req) with complaint | _ | ⟨name, docId | limit⟩
  · exact ⟨_, _, handle_read_document_eq ▸ ends_of_refused hs hopening⟩
  · exact absurd hopening h
  · obtain ⟨result | doc, hread⟩ := s.engine.exists_readDocument hcodec
      (s.looked name).refusals.head name docId
    · exact ⟨_, _, ends_read_one_of_error hs hopening hread⟩
    · exact ⟨_, _, ends_read_one hs hopening hread⟩
  · rcases hsend : sending text codec ((s.engine.cursor name).take limit.toNat) with exn | _
    · obtain ⟨what, rfl, -⟩ := throwsText_sending hcodec _ exn hsend
      exact ⟨_, _, ends_read_all_of_error hs hopening hsend⟩
    · exact ⟨_, _, ends_read_all hs hopening hsend⟩

/-- Finding leaves it too, unless the query is undefined. -/
theorem ends_find_of_defined (hcodec : codec.ThrowsText) (hs : s.Blank)
    (h : s.opening req (findArgs req) ≠ .undefined)
    (hdefined : ∀ name query u, s.opening req (findArgs req) = .onto name query →
      Collection.findDocument codec ⟨name⟩ s.engine query ≠ .error (.undefined u)) : ∃ resp failed,
      Ends (handle_find_documents text codec req topic) s s.engine resp failed := by
  rcases hopening : s.opening req (findArgs req) with complaint | _ | ⟨name, query⟩
  · exact ⟨_, _, handle_find_documents_eq ▸ ends_of_refused hs hopening⟩
  · exact absurd hopening h
  · rcases hfind : Collection.findDocument codec ⟨name⟩ s.engine query with (what | u) | docIds
    · exact ⟨_, _, ends_find_of_exception hs hopening hfind⟩
    · exact absurd hfind (hdefined name query u hopening)
    · rcases ends_find text topic hcodec hs hopening hfind with
        ⟨failed, hends, -⟩ | ⟨what, -, -, hends⟩
      · exact ⟨_, _, hends⟩
      · exact ⟨_, _, hends⟩

/-- Listing the indexes leaves it. -/
theorem ends_get_indexes_of_defined (hs : s.Blank) (h : s.opening req (.ok ()) ≠ .undefined) :
    ∃ resp failed, Ends (handle_get_indexes req) s s.engine resp failed := by
  rcases hopening : s.opening req (.ok ()) with complaint | _ | ⟨name, _⟩
  · exact ⟨_, _, handle_get_indexes_eq ▸ ends_of_refused hs hopening⟩
  · exact absurd hopening h
  · exact ⟨_, _, ends_get_indexes hs hopening⟩

end Service

namespace Server

variable {text : JsonText} {codec : Codec} {s : Server} {d : Delivery} {command : Command}
  {req : Json} {name : Bytes}

/-- A command that reads and has its success set afterwards changes nothing. -/
theorem carriesOut_of_succeeded {x : Service Unit}
    (hasked : text.asked d.payload = .ok (command, req))
    (hhandle : command.handle text codec d req (text.topic d.payload) =
      (do x; Service.set Service.status (.string Service.success)))
    (h : ∃ resp failed, Service.Ends x (s.begun text d) s.engine resp failed) :
    s.CarriesOut text codec d .nothing := by
  obtain ⟨resp, failed, hends⟩ := h
  rcases answers_or_escapes hasked hhandle hends with ⟨resp', -, hanswers⟩ | ⟨-, what, s', hserve, he⟩
  · exact hanswers.carriesOut
  · refine .of_nothing (fun s₁ hstep => ?_) ?_
    · rw [hstep.2, hserve]
      exact he
    · rintro ⟨u, hu⟩
      rw [hserve] at hu
      cases hu

/-! ### The condition -/

/-- **The condition on a request.** Nothing is undefined before the call – no pointer dangles,
and the arguments can be read – and it is not an index that is to be deleted, unless the
collection is not found. -/
def CanCarryOut (codec : Codec) (s : Server) (req : Json) : Command → Prop
  | .create_collection | .delete_collection | .get_collections | .export_collection => True
  | .create_document => s.opening req (Service.createArgs req) ≠ .undefined
  | .delete_document => s.opening req (req.stringAt (Bytes.ofText "document_id")) ≠ .undefined
  | .create_index => s.opening req (req.stringAt (Bytes.ofText "field")) ≠ .undefined
  | .delete_index =>
    ∃ complaint, s.opening req (req.stringAt (Bytes.ofText "field")) = .refused complaint
  | .get_indexes => s.opening req (.ok ()) ≠ .undefined
  | .read_document => s.opening req (Service.readArgs req) ≠ .undefined
  | .find_documents => s.opening req (Service.findArgs req) ≠ .undefined ∧
    ∀ name query u, s.opening req (Service.findArgs req) = .onto name query →
      Collection.findDocument codec ⟨name⟩ s.engine query ≠ .error (.undefined u)

/-- **Where the condition is met**, the request does what it names, whatever it meets. -/
theorem CanCarryOut.carriesOut {named : Entropy → DatabaseCall} (hcodec : codec.ThrowsText)
    (hdb : s.engine.db_ = .opened) (hasked : text.asked d.payload = .ok (command, req))
    (hnames : command.names? req = some named) (h : s.CanCarryOut codec req command) :
    s.CarriesOut text codec d (named d.entropy) := by
  cases command with
  | create_collection =>
    obtain ⟨name, hname, hnamed⟩ := eq_some_of_toOption hnames
    obtain rfl := Option.some.inj hnamed
    exact carriesOut_create_collection hdb hasked hname
  | delete_collection =>
    obtain ⟨name, hname, hnamed⟩ := eq_some_of_toOption hnames
    obtain rfl := Option.some.inj hnamed
    exact carriesOut_delete_collection hasked hname
  | create_document =>
    obtain ⟨name, hname, hnamed⟩ := eq_some_of_toOption hnames
    obtain ⟨a, hargs, hnamed⟩ := eq_some_of_toOption hnamed
    obtain rfl := Option.some.inj hnamed
    refine carriesOut_onCollection hasked (Service.handle_create_document_eq codec d req) hname hargs
      h ?_ fun _ h => by cases h
    exact (Functor.map_map Prod.fst (fun _ => ()) _).symm
  | delete_document =>
    obtain ⟨name, hname, hnamed⟩ := eq_some_of_toOption hnames
    obtain ⟨docId, hargs, hnamed⟩ := eq_some_of_toOption hnamed
    obtain rfl := Option.some.inj hnamed
    have hcontains : req.contains (Bytes.ofText "document_id") = true :=
      Json.contains_of_stringAt hargs
    exact carriesOut_onCollection hasked (Service.handle_delete_document_eq codec req hcontains)
      hname hargs h rfl fun _ h => by cases h
  | create_index =>
    obtain ⟨name, hname, hnamed⟩ := eq_some_of_toOption hnames
    obtain ⟨field, hargs, hnamed⟩ := eq_some_of_toOption hnamed
    obtain rfl := Option.some.inj hnamed
    exact carriesOut_onCollection hasked (Service.handle_create_index_eq codec req) hname hargs h rfl
      fun _ h => by cases h
  | delete_index =>
    obtain ⟨name, hname, hnamed⟩ := eq_some_of_toOption hnames
    obtain ⟨field, hargs, hnamed⟩ := eq_some_of_toOption hnamed
    obtain rfl := Option.some.inj hnamed
    obtain ⟨complaint, hrefused⟩ := h
    rcases opening_cases (s := s) hname hargs with ⟨hfinds, -⟩ | hopening | hopening
    · exact carriesOut_of_not_finds hasked (Service.handle_delete_index_eq codec req) hname hfinds
    · rw [hrefused] at hopening
      cases hopening
    · rw [hrefused] at hopening
      cases hopening
  | get_collections =>
    obtain rfl := Option.some.inj hnames
    exact (answers_of_ends hasked (Service.ends_get_collections (blank_begun text s d))).carriesOut
  | get_indexes =>
    obtain ⟨name, hname, hnamed⟩ := eq_some_of_toOption hnames
    obtain rfl := Option.some.inj hnamed
    obtain ⟨resp, failed, hends⟩ :=
      Service.ends_get_indexes_of_defined (blank_begun text s d) h
    exact (answers_of_ends hasked hends).carriesOut
  | read_document =>
    obtain ⟨name, hname, hnamed⟩ := eq_some_of_toOption hnames
    obtain rfl := Option.some.inj hnamed
    exact carriesOut_of_succeeded hasked rfl (Service.ends_read hcodec (blank_begun text s d) h)
  | find_documents =>
    obtain ⟨name, hname, hnamed⟩ := eq_some_of_toOption hnames
    obtain rfl := Option.some.inj hnamed
    exact carriesOut_of_succeeded hasked rfl
      (Service.ends_find_of_defined hcodec (blank_begun text s d) h.1 h.2)
  | export_collection => cases hnames

end Server

/-! ### Where the condition is not met -/

/-- What raises nothing but text does not end in undefined behaviour. -/
theorem Engine.run_ne_undefined {α : Type} {p : Engine α} (hp : p.Raises Exn.IsText) (w : World)
    (u : Undefined) : (p.run w).1 ≠ .raise (.undefined u) := by
  intro h
  obtain ⟨what, hwhat, -⟩ := hp.of_run (Prod.ext h rfl)
  cases hwhat

/-- A call on a collection is undefined only on the collection. -/
theorem DatabaseCall.run_onCollection_ne_undefined {codec : Codec} {e : StorageEngine}
    {call : CollectionCall} {name : Bytes}
    (hcall : ∀ c r u, (((call.operation c).perform codec).run (.refusing e r)).1 ≠
      .raise (.undefined u)) (db : Database) (r : Stream' (Option Bytes)) (u : Undefined) :
    (((DatabaseCall.onCollection name call).perform codec db).run (.refusing e r)).1 ≠
      .raise (.undefined u) := by
  have hmade (c : Collection) (r' : Stream' (Option Bytes)) :
      (((fun _ => ()) <$> (call.operation c).perform codec : Engine Unit).run
        (.refusing e r')).1 ≠ .raise (.undefined u) := by
    intro h
    rw [Engine.run, Prog.run_map] at h
    have hne := hcall c r' u
    rw [Engine.run] at hne
    rcases hrun : Prog.run World.handle ((call.operation c).perform codec) (.refusing e r') with
      ⟨status | exn | _, w⟩ <;> rw [hrun] at h hne
    · cases h
    · obtain rfl : exn = .undefined u := Outcome.raise.inj h
      exact hne rfl
    · cases h
  rw [perform]
  rcases hfind : db.find name with _ | c
  · have hget := Database.run_getCollection (e := e) (r := r) hfind
    split_ifs at hget
    · rw [Engine.run_bind_of_ret hget]
      exact hmade _ _
    · rw [Engine.run_bind_of_ret hget]
      exact fun h => by cases h
  · rw [Engine.run_bind_of_ret (Database.run_getCollection_of_cached (e := e) (r := r) hfind)]
    exact hmade _ _

/-- A family that can be dropped, and is not refused, is gone. -/
theorem StorageEngine.not_mem_dropCollection {e : StorageEngine} {n : Bytes}
    (hdefault : n ≠ kDefaultColumnFamilyName) :
    n ∉ (e.dropCollection none n).2.columnFamilies_ := by
  by_cases hn : n ∈ e.columnFamilies_
  · rw [dropCollection_none hn hdefault]
    exact fun h => ((mem_erase_family hn).mp h).1 rfl
  · rw [dropCollection, if_neg hn]
    exact hn

/-- A delivery of which nothing is refused. -/
def Delivery.calm (payload : Bytes) : Delivery where
  payload
  refusals := Stream'.const none
  entropy := ⟨0, fun _ => 0⟩
  os := .calm
  taken := Stream'.const true

/-- A request that works on an index of a collection. -/
def Delivery.onIndex (command : String) : Delivery :=
  .ofTexts [("command", command), ("request_id", "1"), ("collection_name", "c"), ("field", "f")]

namespace Server

variable {text : JsonText} {codec : Codec} {s : Server} {d : Delivery} {command : Command}
  {req : Json} {name : Bytes}

/-- Where nothing refuses, the index is there when it has been created, and is not when it has been
deleted. -/
theorem not_carriesOut_delete_index {field : Bytes} (hcodec : codec.ThrowsText)
    (hdb : s.engine.db_ = .opened) (hasked : text.asked d.payload = .ok (.delete_index, req))
    (hcalm : d.refusals = Stream'.const none)
    (hopening : s.opening req (req.stringAt (Bytes.ofText "field")) = .onto name field) :
    ¬s.CarriesOut text codec d (.onCollection name (.deleteIndex field)) := by
  obtain ⟨-, hfinds, -, hdangles⟩ := opening_eq_onto_iff.mp hopening
  have hhead : ((s.begun text d).looked name).refusals.head = none := by
    change (if (s.begun text d).Holds name then d.refusals else d.refusals.tail).head = none
    rw [hcalm]
    split_ifs <;> rfl
  have hcreated := Collection.mem_run_createIndex (e := (s.begun text d).engine) codec ⟨name⟩
    field hdb hhead
  have hnamed := DatabaseCall.run_onCollection_of_finds (s := s.begun text d) codec
    (.deleteIndex field) hfinds hdangles
  intro hcarries
  have hraise (exn : Exn) : ((Collection.createIndex codec ⟨name⟩ none field).run (.refusing
      (s.begun text d).engine ((s.begun text d).looked name).refusals)).1 ≠ .raise exn :=
    Collection.run_createIndex_ne_raise _ _ hcodec hdb
  have hstopped := Engine.run_refusing_ne_stopped (Collection.createIndex codec ⟨name⟩ none field)
    (s.begun text d).engine ((s.begun text d).looked name).refusals
  rcases hmade : (Collection.createIndex codec ⟨name⟩ none field).run
    (.refusing (s.begun text d).engine ((s.begun text d).looked name).refusals) with
    ⟨status | exn | _, w⟩
  · have hanswers := answers_of_ends (s := s) hasked
      (Service.handle_delete_index_eq codec req ▸
        Service.ends_callOn (blank_begun text s d) hopening hmade)
    have hengine := hcarries.engine_eq _ hanswers.step
    rw [hanswers.engine_eq hanswers.step] at hengine
    rw [hmade] at hcreated
    change indexFamily name field ∈ w.engine.columnFamilies_ at hcreated
    rw [hengine] at hcreated
    -- what is named drops the family
    have hdropped : (((DatabaseCall.onCollection name (.deleteIndex field)).perform codec
        s.objects.forget).run (.refusing s.engine d.refusals)).2.engine =
          (s.engine.dropCollection none (indexFamily name field)).2 := by
      refine (congrArg (fun x => x.2.engine) hnamed).trans ?_
      rw [Engine.run, Prog.run_map]
      have hperform := Engine.run_perform_refusing (e := (s.begun text d).engine)
        (r := ((s.begun text d).looked name).refusals) (.dropCollection (indexFamily name field))
      rw [hhead] at hperform
      exact congrArg (fun x => x.2.engine) hperform
    rw [hdropped] at hcreated
    exact StorageEngine.not_mem_dropCollection
      (ne_default_of_delimited (delimiter_infix_indexFamily name field)) hcreated
  · exact hraise exn (congrArg Prod.fst hmade)
  · exact hstopped (congrArg Prod.fst hmade)

/-- **A request that does what it names, whatever it meets, meets the condition.** -/
theorem CanCarryOut.of_forall {payload : Bytes} {named : Entropy → DatabaseCall}
    (hcodec : codec.ThrowsText) (hdb : s.engine.db_ = .opened)
    (hasked : text.asked payload = .ok (command, req)) (hnames : command.names? req = some named)
    (h : ∀ d : Delivery, d.payload = payload → s.CarriesOut text codec d (named d.entropy)) :
    s.CanCarryOut codec req command := by
  -- one delivery that meets nothing is enough
  have hcalm := h (.calm payload) rfl
  have hasked' : text.asked (Delivery.calm payload).payload = .ok (command, req) := hasked
  have hdefined {call : DatabaseCall} (hcarries : s.CarriesOut text codec (.calm payload) call)
      (hne : ∀ u, ((call.perform codec s.objects.forget).run
        (.refusing s.engine (Stream'.const none))).1 ≠ .raise (.undefined u)) :
      ¬Service.Crashes (command.handle text codec (.calm payload) req (text.topic payload))
        (s.begun text (.calm payload)) := by
    intro hcrashes
    obtain ⟨u, hu⟩ := hcarries.undefined (crashes_of_crashes hasked' hcrashes)
    exact hne u hu
  have hnothing (u : Undefined) : ((DatabaseCall.nothing.perform codec s.objects.forget).run
      (.refusing s.engine (Stream'.const none))).1 ≠ .raise (.undefined u) := fun h => by cases h
  cases command with
  | create_collection => trivial
  | delete_collection => trivial
  | get_collections => trivial
  | export_collection => trivial
  | create_document =>
    obtain ⟨name, -, hnamed⟩ := eq_some_of_toOption hnames
    obtain ⟨a, -, hnamed⟩ := eq_some_of_toOption hnamed
    obtain rfl := Option.some.inj hnamed
    intro hopening
    have hcrashes := Service.crashes_of_eq (s := s.begun text (.calm payload))
      (Service.handle_create_document_eq codec (.calm payload) req) hopening
    refine hdefined hcalm (DatabaseCall.run_onCollection_ne_undefined (fun c r u => ?_) _ _) hcrashes
    have hraises : (Prod.fst <$> c.createDocument codec (Delivery.calm payload).entropy ⟨a.1, a.2⟩ :
        Engine Status).Raises Exn.IsText :=
      (Collection.raises_createDocument _ _).bind fun _ => Prog.raises_pure _
    exact Engine.run_ne_undefined hraises _ u
  | delete_document =>
    obtain ⟨name, -, hnamed⟩ := eq_some_of_toOption hnames
    obtain ⟨docId, hargs, hnamed⟩ := eq_some_of_toOption hnamed
    obtain rfl := Option.some.inj hnamed
    intro hopening
    have hcrashes := Service.crashes_of_eq (s := s.begun text (.calm payload))
      (Service.handle_delete_document_eq codec req (Json.contains_of_stringAt hargs)) hopening
    refine hdefined hcalm (DatabaseCall.run_onCollection_ne_undefined (fun c r u => ?_) _ _) hcrashes
    exact Engine.run_ne_undefined (Collection.raises_deleteDocument hcodec docId) _ u
  | create_index =>
    obtain ⟨name, -, hnamed⟩ := eq_some_of_toOption hnames
    obtain ⟨field, -, hnamed⟩ := eq_some_of_toOption hnamed
    obtain rfl := Option.some.inj hnamed
    intro hopening
    have hcrashes := Service.crashes_of_eq (s := s.begun text (.calm payload))
      (Service.handle_create_index_eq codec req) hopening
    refine hdefined hcalm (DatabaseCall.run_onCollection_ne_undefined (fun c r u => ?_) _ _) hcrashes
    exact Collection.run_createIndex_ne_raise c field hcodec hdb
  | delete_index =>
    obtain ⟨name, hname, hnamed⟩ := eq_some_of_toOption hnames
    obtain ⟨field, hargs, hnamed⟩ := eq_some_of_toOption hnamed
    obtain rfl := Option.some.inj hnamed
    rcases opening_cases (s := s) hname hargs with ⟨-, hrefused⟩ | hopening | hopening
    · exact hrefused
    · have hcrashes := Service.crashes_of_eq (s := s.begun text (.calm payload))
        (Service.handle_delete_index_eq codec req) hopening
      refine absurd hcrashes (hdefined hcalm
        (DatabaseCall.run_onCollection_ne_undefined (fun c r u => ?_) _ _))
      exact Engine.run_ne_undefined (Prog.raises_perform _) _ u
    · exact absurd hcalm (not_carriesOut_delete_index hcodec hdb hasked' rfl hopening)
  | get_indexes =>
    obtain ⟨name, -, hnamed⟩ := eq_some_of_toOption hnames
    obtain rfl := Option.some.inj hnamed
    intro hopening
    have hcrashes := Service.crashes_of_eq (s := s.begun text (.calm payload))
      Service.handle_get_indexes_eq hopening
    exact hdefined hcalm hnothing hcrashes
  | read_document =>
    obtain ⟨name, -, hnamed⟩ := eq_some_of_toOption hnames
    obtain rfl := Option.some.inj hnamed
    intro hopening
    refine hdefined hcalm hnothing (Service.Crashes.bind ?_)
    exact Service.crashes_of_eq Service.handle_read_document_eq hopening
  | find_documents =>
    obtain ⟨name, -, hnamed⟩ := eq_some_of_toOption hnames
    obtain rfl := Option.some.inj hnamed
    constructor
    · intro hopening
      refine hdefined hcalm hnothing (Service.Crashes.bind ?_)
      exact Service.crashes_of_eq Service.handle_find_documents_eq hopening
    · intro n query u hopening hfind
      have hcrashes := Service.crashes_find (s := s.begun text (.calm payload)) text codec
        (text.topic payload) hopening hfind
      exact hdefined hcalm hnothing hcrashes.bind

/-- **What a request does, in every state that is reached**: it does what it names, whatever it
meets, exactly if the condition is met. -/
theorem carriesOut_iff {payload : Bytes} {named : Entropy → DatabaseCall}
    (hreachable : s.Reachable text codec) (hcodec : codec.ThrowsText)
    (hasked : text.asked payload = .ok (command, req)) (hnames : command.names? req = some named) :
    (∀ d : Delivery, d.payload = payload → s.CarriesOut text codec d (named d.entropy)) ↔
      s.CanCarryOut codec req command := by
  refine ⟨CanCarryOut.of_forall hcodec hreachable.opened hasked hnames, fun h d hd => ?_⟩
  exact h.carriesOut hcodec hreachable.opened (hd ▸ hasked) hnames

/-- What a payload asks for, from what can be computed of it. -/
theorem exists_asked {payload name : Bytes}
    (hcommand : (JsonText.standard.asked payload).toOption.map Prod.fst = some command)
    (hname : (JsonText.standard.asked payload).toOption.bind (fun x =>
      (x.2.stringAt (Bytes.ofText "collection_name")).toOption) = some name) :
    ∃ req, JsonText.standard.asked payload = .ok (command, req) ∧
      req.stringAt (Bytes.ofText "collection_name") = .ok name := by
  rcases hasked : JsonText.standard.asked payload with complaint | ⟨command', req⟩
  · rw [hasked] at hcommand
    cases hcommand
  · rw [hasked] at hcommand hname
    obtain rfl : command' = command := Option.some.inj hcommand
    refine ⟨req, rfl, ?_⟩
    exact eq_ok_of_toOption hname

theorem reachable_started {e : StorageEngine} (he : e.db_ = .opened) :
    (started e).Reachable text codec := ⟨e, [], he, .nil⟩

/-- On a new server, a collection is created. -/
theorem carriesOut_creating : (started .fresh).CarriesOut .standard .standard
    (.named "create_collection" "c") (.createCollection (Bytes.ofText "c")) := by
  obtain ⟨req, hasked, hname⟩ := @exists_asked .create_collection
    (Delivery.named "create_collection" "c").payload (Bytes.ofText "c")
    (by decide +kernel) (by decide +kernel)
  have hnames : Command.names? req .create_collection =
      some fun _ => .createCollection (Bytes.ofText "c") := by
    rw [Command.names?, hname]
    rfl
  exact (carriesOut_iff (reachable_started rfl) Codec.throwsText_standard hasked hnames).mpr
    trivial (.named "create_collection" "c") rfl

/-- A server with a collection that has an index. -/
def indexed : Server :=
  ((started .fresh).after (.named "create_collection" "c")).after (.onIndex "create_index")

theorem reachable_indexed : indexed.Reachable .standard .standard :=
  ⟨.fresh, _, rfl, (History.Run.nil.snoc (step_after (by decide +kernel))).snoc
    (step_after (by decide +kernel))⟩

/-- **Deleting an index keeps it**, and reports success. -/
theorem not_carriesOut_deleting : ∃ req named, indexed.Reachable .standard .standard ∧
    JsonText.standard.asked (Delivery.onIndex "delete_index").payload = .ok (.delete_index, req) ∧
    Command.names? req .delete_index = some named ∧
    ¬indexed.CarriesOut .standard .standard (.onIndex "delete_index")
      (named (Delivery.onIndex "delete_index").entropy) := by
  obtain ⟨req, hasked, hname⟩ := @exists_asked .delete_index
    (Delivery.onIndex "delete_index").payload (Bytes.ofText "c")
    (by decide +kernel) (by decide +kernel)
  have hfield : req.stringAt (Bytes.ofText "field") = .ok (Bytes.ofText "f") := by
    have hread : (JsonText.standard.asked (Delivery.onIndex "delete_index").payload
        ).toOption.bind (fun x => (x.2.stringAt (Bytes.ofText "field")).toOption) =
          some (Bytes.ofText "f") := by decide +kernel
    rw [hasked] at hread
    exact eq_ok_of_toOption hread
  have hnames : Command.names? req .delete_index =
      some fun _ => .onCollection (Bytes.ofText "c") (.deleteIndex (Bytes.ofText "f")) := by
    rw [Command.names?, hname, hfield]
    rfl
  refine ⟨req, _, reachable_indexed, hasked, hnames, fun h => ?_⟩
  have hsucceeds : indexed.Succeeds .standard .standard (.onIndex "delete_index") := by
    refine succeeds_of_getString ?_
    decide +kernel
  exact absurd (h.unlisted _ _ _ rfl hsucceeds (step_after (by decide +kernel)))
    (by decide +kernel)

end Server

end AnuDB
