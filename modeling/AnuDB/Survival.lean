import AnuDB.ExportFiles
import AnuDB.Replies

/-!
# Does a request leave the server alive?

A request that is handled either comes to a reply, or an exception leaves `handle_request`, or
there is undefined behaviour. What the handlers throw they catch, but the reply is dumped after
that, and a reply with a string that is not UTF-8 is not dumped. So it matters what texts get into
a reply: the message of a parser that repeats what it was given, the message of a status RocksDB
came up with, names and documents somebody has stored.

What a request says itself is UTF-8, since it was parsed, and so are the texts of the code. So
where there is a reply is known from the request and the server before anything is done
(`AnuDB.Server.returns_iff_livesOn`), and the first byte of a payload may be enough for there to be none.
-/

namespace AnuDB

open Effect

/-! ### Values that can be dumped -/

namespace Json

variable {j j' value : Json} {field s : Bytes} {members : List (Bytes × Json)}

theorem isUtf8_string : (string s).isUtf8 = true ↔ Utf8.Valid s := decide_eq_true_iff

theorem isUtf8_object : (object members).isUtf8 = true ↔
    ∀ x ∈ members, Utf8.Valid x.1 ∧ x.2.isUtf8 = true := by
  refine allMembers_iff.trans (forall₂_congr fun x _ => ?_)
  rw [decide_eq_true_iff]
  rfl

/-- A member of a value that can be dumped can be dumped. -/
theorem isUtf8_of_find? (h : j.isUtf8 = true) (hfind : j.find? field = some value) :
    value.isUtf8 = true := by
  cases j with
  | object members =>
    obtain ⟨before, after, rfl, -⟩ := List.lookup_eq_some_iff.mp hfind
    exact (isUtf8_object.mp h (field, value) (by simp)).2
  | _ => cases hfind

/-- A string that is read is the value of its field. -/
theorem find?_of_stringAt (hs : j.stringAt field = .ok s) : j.find? field = some (string s) := by
  obtain ⟨v, hindex, hstring⟩ := bind_eq_ok_iff.mp hs
  obtain rfl : v = string s := by
    cases v with
    | string s' => exact congrArg string (Except.ok.inj hstring)
    | _ => cases hstring
  obtain ⟨w, hw⟩ := Option.isSome_iff_exists.mp (contains_of_stringAt hs)
  cases j with
  | object members =>
    rw [index, hw] at hindex
    rw [hw]
    exact congrArg some (Except.ok.inj hindex)
  | _ => cases hw

/-- **A string of a value that can be dumped is UTF-8.** -/
theorem valid_of_stringAt (h : j.isUtf8 = true) (hs : j.stringAt field = .ok s) :
    Utf8.Valid s :=
  isUtf8_string.mp (isUtf8_of_find? h (find?_of_stringAt hs))

/-- A member that can be dumped may be set. -/
theorem isUtf8_of_setMember (h : j.isUtf8 = true) (hfield : Utf8.Valid field)
    (hvalue : value.isUtf8 = true) (hset : j.setMember field value = .ok j') :
    j'.isUtf8 = true := by
  cases j with
  | null =>
    obtain rfl := Except.ok.inj hset
    refine isUtf8_object.mpr fun x hx => ?_
    rw [List.mem_singleton.mp hx]
    exact ⟨hfield, hvalue⟩
  | object members =>
    obtain rfl := Except.ok.inj hset
    refine isUtf8_object.mpr fun x hx => ?_
    rcases Assoc.mem_set hx with rfl | hx
    · exact ⟨hfield, hvalue⟩
    · exact isUtf8_object.mp h x hx
  | _ => cases hset

end Json

/-! ### Texts that are told -/

/-- **What is thrown can be told**: the text of an exception is UTF-8. -/
def Tells {α : Type} (x : Except Exn α) : Prop :=
  ∀ what, x = .error (.exception what) → Utf8.Valid what

namespace Tells

variable {α β : Type}

protected theorem ok (a : α) : Tells (.ok a) := fun what h => by cases h

protected theorem undefined (u : Undefined) : Tells (.error (.undefined u) : Except Exn α) :=
  fun what h => by cases h

protected theorem bind {x : Except Exn α} {f : α → Except Exn β} (hx : Tells x)
    (hf : ∀ a, Tells (f a)) : Tells (x >>= f) := by
  cases x with
  | ok a => exact hf a
  | error exn =>
    intro what h
    obtain rfl := Except.error.inj h
    exact hx what rfl

end Tells

theorem ThrowsText.tells {α : Type} {x : Except Exn α} (h : ThrowsText x) : Tells x := by
  intro what hx
  obtain ⟨what', hwhat, hvalid⟩ := h _ hx
  rwa [Exn.exception.inj hwhat]

namespace Json

variable (j : Json) (field : Bytes)

theorem throwsText_stringAt : ThrowsText (j.stringAt field) :=
  (j.throwsText_index field).bind fun v => v.throwsText_getString

theorem tells_stringAt : Tells (j.stringAt field) := (j.throwsText_stringAt field).tells

theorem tells_stringIfAny : Tells (j.stringIfAny field) := by
  rw [stringIfAny]
  split_ifs
  · exact j.tells_stringAt field
  · exact Tells.ok []

theorem tells_getUInt32 : Tells j.getUInt32 := by
  have herror : Tells (.error j.notANumber : Except Exn UInt32) :=
    (ThrowsText.error (Utf8.Valid.append (by decide) j.valid_typeName)).tells
  cases j with
  | integer i => exact Tells.ok _
  | boolean b => exact Tells.ok _
  | float bits =>
    show Tells (truncated bits)
    rw [truncated]
    split_ifs
    · exact Tells.ok _
    · exact Tells.undefined _
  | _ => exact herror

theorem tells_noKey {α : Type} : Tells (.error noKey : Except Exn α) := by
  intro what h
  obtain rfl := Exn.exception.inj (Except.error.inj h)
  decide

theorem tells_entries : Tells j.entries := by
  cases j with
  | null => exact Tells.ok _
  | object members => exact Tells.ok _
  | array items =>
    cases items with
    | nil => exact Tells.ok _
    | cons item items => exact tells_noKey
  | _ => exact tells_noKey

theorem tells_firstEntry : Tells j.firstEntry := by
  cases j with
  | object members =>
    cases members with
    | nil => exact Tells.undefined _
    | cons e members => exact Tells.ok _
  | _ => exact tells_noKey

end Json

/-! ### What a query throws -/

namespace Collection

variable (c : Collection) (e : StorageEngine)

theorem tells_findDocumentsUsingEq (ops : Json) (indexes docIds : List Bytes) :
    Tells (c.findDocumentsUsingEq codec e ops indexes docIds) := by
  refine ops.tells_firstEntry.bind fun x => ?_
  refine (Json.throwsText_parseValue x.2).tells.bind fun value => ?_
  split_ifs
  · exact Tells.ok _
  · exact Tells.ok _

theorem tells_findDocumentsUsingGt (ops : Json) (docIds : List Bytes) :
    Tells (c.findDocumentsUsingGt codec e ops docIds) := by
  refine ops.tells_firstEntry.bind fun x => ?_
  refine (Json.throwsText_parseValue x.2).tells.bind fun value => ?_
  split_ifs
  · exact Tells.ok _
  · exact Tells.ok _

theorem tells_findDocumentsUsingLt (ops : Json) (docIds : List Bytes) :
    Tells (c.findDocumentsUsingLt codec e ops docIds) := by
  refine ops.tells_firstEntry.bind fun x => ?_
  refine (Json.throwsText_parseValue x.2).tells.bind fun value => ?_
  split_ifs
  · exact Tells.ok _
  · rw [StorageEngine.fetchDocIdsForLesser]
    split_ifs
    · exact Tells.ok _
    · exact Tells.undefined _

theorem tells_findNested (indexes : List Bytes) (op : Bytes) (ops : Json) :
    Tells (c.findNested codec e indexes op ops) := by
  rw [findNested]
  split_ifs
  · exact c.tells_findDocumentsUsingEq e ops indexes []
  · exact c.tells_findDocumentsUsingGt e ops []
  · exact c.tells_findDocumentsUsingLt e ops []
  · exact Tells.ok _

variable (combine : List Bytes → List Bytes → List Bytes) (indexes : List Bytes)

theorem tells_findInClause (elements : List (Bytes × Json)) (set : List Bytes) :
    Tells (c.findInClause codec e combine indexes elements set) := by
  induction elements generalizing set with
  | nil => exact Tells.ok _
  | cons x elements ih =>
    refine (c.tells_findNested e indexes _ x.2).bind fun ⟨status, docIds⟩ => ?_
    show Tells (if status.ok = true then _ else _)
    split_ifs
    · exact ih _
    · exact Tells.ok _

theorem tells_findInClauses (items : List Json) (set : List Bytes) :
    Tells (c.findInClauses codec e combine indexes items set) := by
  induction items generalizing set with
  | nil => exact Tells.ok _
  | cons item items ih =>
    refine item.tells_entries.bind fun elements => ?_
    refine (c.tells_findInClause e combine indexes elements set).bind fun found => ?_
    cases found with
    | none => exact Tells.ok _
    | some set => exact ih set

theorem tells_findCombined (ops : Json) (docIds : List Bytes) :
    Tells (c.findCombined codec e combine indexes ops docIds) := by
  cases ops with
  | array items =>
    exact (c.tells_findInClauses e combine indexes items []).bind fun set => Tells.ok _
  | _ => exact Tells.ok _

theorem tells_findStep (op : Bytes) (ops : Json) (docIds : List Bytes) :
    Tells (c.findStep codec e indexes op ops docIds) := by
  rw [findStep]
  split_ifs
  · exact (c.tells_findDocumentsUsingEq e ops indexes docIds).bind fun _ => Tells.ok _
  · exact (c.tells_findDocumentsUsingGt e ops docIds).bind fun _ => Tells.ok _
  · exact (c.tells_findDocumentsUsingLt e ops docIds).bind fun _ => Tells.ok _
  · exact c.tells_findCombined e _ indexes ops docIds
  · exact c.tells_findCombined e _ indexes ops docIds
  · refine Tells.bind (ops.tells_firstEntry.bind fun x => ?_) fun _ => Tells.ok _
    exact x.2.throwsText_getString.tells.bind fun _ => Tells.ok _
  · exact Tells.ok _

/-- **What a query throws can be told.** -/
theorem tells_findDocument (query : Json) : Tells (c.findDocument codec e query) := by
  refine query.tells_entries.bind fun members => ?_
  have hall (members : List (Bytes × Json)) (docIds : List Bytes) :
      Tells (c.findAll codec e (e.getIndexNames c.name_) members docIds) := by
    induction members generalizing docIds with
    | nil => exact Tells.ok _
    | cons x members ih =>
      refine (c.tells_findStep e _ x.1 x.2 docIds).bind fun found => ?_
      cases found with
      | none => exact Tells.ok _
      | some docIds => exact ih docIds
  exact hall members []

end Collection

/-! ### What is read of a request -/

section Opening

variable {α : Type} {s : Server} {req : Json} {args : Except Exn α} {text : Bytes}

/-- A complaint about a request that was parsed can be told. -/
theorem Server.valid_of_refused (hreq : req.isUtf8 = true) (hargs : Tells args)
    (h : s.opening req args = .refused text) : Utf8.Valid text := by
  have hexception {β : Type} {x : Except Exn β} {exn : Exn} (hx : Tells x) (hexn : x = .error exn)
      (hrefused : (Opening.ofError exn : Opening α) = .refused text) : Utf8.Valid text := by
    cases exn with
    | exception what =>
      obtain rfl := Opening.refused.inj hrefused
      exact Utf8.Valid.append (by decide) (hx what hexn)
    | undefined u => cases hrefused
  rw [opening] at h
  rcases hname : req.stringAt (Bytes.ofText "collection_name") with exn | name
  · rw [hname] at h
    exact hexception (req.tells_stringAt _) hname h
  simp only [hname] at h
  by_cases hfinds : s.Finds name
  · rw [if_pos hfinds] at h
    rcases hread : args with exn | a
    · rw [hread] at h
      exact hexception hargs hread h
    · simp only [hread] at h
      split_ifs at h
  · rw [if_neg hfinds] at h
    obtain rfl := Opening.refused.inj h
    have hvalid := Json.valid_of_stringAt hreq hname
    exact Utf8.Valid.append (Utf8.Valid.append (by decide) hvalid) (by decide)

end Opening

namespace Service

variable (req : Json)

theorem tells_createArgs : Tells (createArgs req) :=
  (req.tells_stringIfAny _).bind fun _ => (req.throwsText_index _).tells.bind fun _ => Tells.ok _

theorem tells_readArgs : Tells (readArgs req) := by
  rw [readArgs, readLimit]
  split_ifs
  · exact (req.tells_stringAt _).bind fun _ => Tells.ok _
  · exact ((req.throwsText_index _).tells.bind fun v => v.tells_getUInt32).bind fun _ => Tells.ok _
  · exact Tells.ok _

theorem tells_findArgs : Tells (findArgs req) :=
  (req.tells_stringAt _).bind fun _ => (req.throwsText_index _).tells

end Service

/-! ### Replies that can be dumped -/

/-- **A status that can be told**: it is OK, or its message is UTF-8. -/
def Status.Told (status : Status) : Prop := status.ok = true ∨ Utf8.Valid status.msg

namespace Service

theorem valid_status : Utf8.Valid status := by decide

theorem valid_message : Utf8.Valid message := by decide

theorem isUtf8_complaint {text : Bytes} : (complaint text).isUtf8 = true ↔ Utf8.Valid text := by
  rw [complaint, Json.isUtf8_object]
  constructor
  · exact fun h => Json.isUtf8_string.mp (h (message, .string text) List.mem_cons_self).2
  · intro h x hx
    rcases List.mem_cons.mp hx with rfl | hx
    · exact ⟨valid_message, Json.isUtf8_string.mpr h⟩
    · rw [List.mem_singleton.mp hx]
      exact ⟨valid_status, by decide⟩

theorem isUtf8_answered {fields : List (Bytes × Bytes)}
    (h : ∀ x ∈ fields, Utf8.Valid x.1 ∧ Utf8.Valid x.2) : (answered fields).isUtf8 = true := by
  have hall (fields : List (Bytes × Bytes)) (members : List (Bytes × Json))
      (h : ∀ x ∈ fields, Utf8.Valid x.1 ∧ Utf8.Valid x.2)
      (hmembers : (Json.object members).isUtf8 = true) :
      (Json.object (fields.foldl (fun members x => Assoc.set x.1 (.string x.2) members)
        members)).isUtf8 = true := by
    induction fields generalizing members with
    | nil => exact hmembers
    | cons x fields ih =>
      rw [List.forall_mem_cons] at h
      refine ih _ h.2 (Json.isUtf8_of_setMember hmembers h.1.1 ?_ rfl)
      exact Json.isUtf8_string.mpr h.1.2
  exact hall fields [] h rfl

/-- A status and its message. -/
theorem isUtf8_failed {failure msg : Bytes} (hfailure : Utf8.Valid failure) :
    (answered [(status, failure), (message, msg)]).isUtf8 = true ↔ Utf8.Valid msg := by
  constructor
  · intro h
    have hfind : (answered [(status, failure), (message, msg)]).find? message =
        some (.string msg) := rfl
    exact Json.isUtf8_string.mp (Json.isUtf8_of_find? h hfind)
  · intro h
    refine isUtf8_answered fun x hx => ?_
    rcases List.mem_cons.mp hx with rfl | hx
    · exact ⟨valid_status, hfailure⟩
    · rw [List.mem_singleton.mp hx]
      exact ⟨valid_message, h⟩

/-- **The answer to a call can be dumped if the status can be told.** -/
theorem isUtf8_concluded {result : Status} {done : List (Bytes × Bytes)} {failure : Bytes}
    (hdone : result.ok = true → ∀ x ∈ done, Utf8.Valid x.1 ∧ Utf8.Valid x.2)
    (hfailure : Utf8.Valid failure) :
    (concluded result done failure).isUtf8 = true ↔ result.Told := by
  rw [concluded, Status.Told]
  split_ifs with hok
  · refine iff_of_true (isUtf8_answered fun x hx => ?_) (Or.inl hok)
    rcases List.mem_cons.mp hx with rfl | hx
    · exact ⟨by decide, by decide⟩
    · exact hdone hok x hx
  · rw [isUtf8_failed hfailure, or_iff_right hok]

/-- What says success afterwards can be dumped. -/
theorem isUtf8_of_succeeded {resp resp' : Json} (h : resp.isUtf8 = true)
    (hset : resp.setMember status (.string success) = .ok resp') : resp'.isUtf8 = true :=
  Json.isUtf8_of_setMember h (by decide) (by decide) hset

/-- A list of names is UTF-8 if the names are. -/
theorem valid_commaList {names : List Bytes} :
    Utf8.Valid (commaList names) ↔ ∀ name ∈ names, Utf8.Valid name := by
  induction names with
  | nil => exact iff_of_true Utf8.valid_nil fun name h => by cases h
  | cons name names ih =>
    have hcons : commaList (name :: names) = name ++ 44 :: commaList names := by
      show (name ++ [44]) ++ _ = _
      rw [List.append_assoc]
      rfl
    rw [hcons, Utf8.valid_append_cons_iff (by decide), ih, List.forall_mem_cons]

end Service

/-! ### How handlers end -/

namespace Service

/-- **A handler comes to a reply that can be dumped exactly if a condition holds**; otherwise to one
that cannot, or to undefined behaviour. -/
def ComesThrough (x : Service Unit) (s : Serving) (P : Prop) : Prop :=
  (∃ e resp failed, Ends x s e resp failed ∧ (resp.isUtf8 = true ↔ P)) ∨ Crashes x s ∧ ¬P

namespace ComesThrough

variable {x : Service Unit} {s : Serving} {e : StorageEngine} {resp : Json} {failed : Bool}
  {P : Prop}

theorem of_isUtf8 (h : Ends x s e resp failed) (hresp : resp.isUtf8 = true) (hP : P) :
    ComesThrough x s P := Or.inl ⟨e, resp, failed, h, iff_of_true hresp hP⟩

theorem of_complaint {text : Bytes} (h : Ends x s e (complaint text) failed)
    (htext : Utf8.Valid text) (hP : P) : ComesThrough x s P :=
  of_isUtf8 h (isUtf8_complaint.mpr htext) hP

end ComesThrough

section UseOn

variable {α β : Type} {s : Serving} {req : Json} {args : Except Exn α}

/-- A request that is refused comes to a reply. -/
theorem comesThrough_of_refused {use : Bytes → α → Collection → Service Unit} {text : Bytes}
    {P : Prop} (hs : s.Blank) (hreq : req.isUtf8 = true) (hargs : Tells args)
    (h : s.opening req args = .refused text) (hP : P) :
    ComesThrough (onCollection req fun name => useOn name args (use name)) s P :=
  .of_complaint (ends_of_refused hs h) (Server.valid_of_refused hreq hargs h) hP

/-- One that names no collection does too. -/
theorem comesThrough_of_unnamed {k : Bytes → Service Unit} {exn : Exn} {P : Prop} (hs : s.Blank)
    (h : req.stringAt (Bytes.ofText "collection_name") = .error exn) (hP : P) :
    ComesThrough (catching (Bytes.ofText "Exception: ")
      (Action.ofExcept (req.stringAt (Bytes.ofText "collection_name")) >>= k)) s P := by
  obtain ⟨what, rfl, hthrows⟩ := throws_of_unnamed (k := k) hs h
  have hvalid : Utf8.Valid (Bytes.ofText "Exception: " ++ what) :=
    Utf8.Valid.append (by decide) (req.tells_stringAt _ what h)
  exact .of_complaint hthrows.catching hvalid hP

variable {call : α → Collection → Engine β} {result : β → Status}
  {done : Bytes → α → β → List (Bytes × Bytes)} {failure : Bytes → Bytes}

/-- **What a call on a collection comes to**, where it is made: its status can be told. -/
def CallTold (s : Serving) (req : Json) (args : Except Exn α) (call : α → Collection → Engine β)
    (result : β → Status) : Prop :=
  s.opening req args ≠ .undefined ∧ ∀ name a b w, s.opening req args = .onto name a →
    (call a ⟨name⟩).run (.refusing s.engine (s.looked name).refusals) = (.ret b, w) →
      (result b).Told

/-- **A call that is made, and what it reports answered.** -/
theorem comesThrough_callOn (hs : s.Blank) (hreq : req.isUtf8 = true) (hargs : Tells args)
    (hcall : ∀ name a exn w,
      (call a ⟨name⟩).run (.refusing s.engine (s.looked name).refusals) = (.raise exn, w) →
        exn.IsText)
    (hdone : ∀ name a b w, s.opening req args = .onto name a →
      (call a ⟨name⟩).run (.refusing s.engine (s.looked name).refusals) = (.ret b, w) →
        ∀ x ∈ done name a b, Utf8.Valid x.1 ∧ Utf8.Valid x.2)
    (hfailure : ∀ name, Utf8.Valid name → Utf8.Valid (failure name)) :
    ComesThrough (callOn req args call result done failure) s (CallTold s req args call result) := by
  rcases hopening : s.opening req args with complaint | _ | ⟨name, a⟩
  · refine comesThrough_of_refused hs hreq hargs hopening ⟨by rw [hopening]; simp, ?_⟩
    intro name a b w h
    rw [hopening] at h
    cases h
  · exact Or.inr ⟨crashes_of_opening hopening, fun h => h.1 hopening⟩
  obtain ⟨hname, -⟩ := Server.opening_eq_onto_iff.mp hopening
  have hvalid := Json.valid_of_stringAt hreq hname
  have hstopped := Engine.run_refusing_ne_stopped (call a ⟨name⟩) s.engine (s.looked name).refusals
  have hdefined : s.opening req args ≠ .undefined := by
    rw [hopening]
    simp
  rcases hrun : (call a ⟨name⟩).run (.refusing s.engine (s.looked name).refusals) with
    ⟨b | exn | _, w⟩
  · refine Or.inl ⟨_, _, _, ends_callOn hs hopening hrun, ?_⟩
    rw [isUtf8_concluded (fun _ => hdone name a b w hopening hrun) (hfailure name hvalid)]
    constructor
    · -- there is no other call than this
      refine fun htold => ⟨hdefined, fun name' a' b' w' hopening' hrun' => ?_⟩
      obtain ⟨rfl, rfl⟩ := Opening.onto.inj (hopening.symm.trans hopening')
      obtain ⟨hb, -⟩ := Prod.mk.inj (hrun.symm.trans hrun')
      rwa [← Outcome.ret.inj hb]
    · exact fun h => h.2 name a b w hopening hrun
  · obtain ⟨what, rfl, hwhat⟩ := hcall name a exn w hrun
    refine .of_complaint (ends_callOn_of_exception hs hopening hrun)
      (Utf8.Valid.append (by decide) hwhat) ⟨hdefined, fun name' a' b' w' hopening' hrun' => ?_⟩
    obtain ⟨rfl, rfl⟩ := Opening.onto.inj (hopening.symm.trans hopening')
    cases hrun.symm.trans hrun'
  · exact absurd (congrArg Prod.fst hrun) hstopped

end UseOn

end Service

/-- What `createDocument` gives back is the document under the id it is to have. -/
theorem Collection.returns_createDocument {codec : Codec} {c : Collection} (entropy : Entropy)
    (doc : Document) : (c.createDocument codec entropy doc).Returns fun x =>
      x.2.id_ = (assignId entropy doc).id_ := by
  rw [createDocument]
  rcases hdoc : (assignId entropy doc).withId with exn | doc'
  · trivial
  have hid := Document.id_of_withId hdoc
  refine Prog.Returns.bind (Q := fun made => made = doc') rfl fun made hmade => ?_
  subst hmade
  refine (Prog.returns_true _).bind fun indexes _ => (Prog.returns_true _).bind fun status _ => ?_
  split_ifs
  · exact (Prog.returns_true _).bind fun status _ => hid
  · exact hid

theorem Collection.valid_assignId {entropy : Entropy} {doc : Document} (h : Utf8.Valid doc.id_) :
    Utf8.Valid (assignId entropy doc).id_ := by
  rw [assignId]
  split_ifs
  · exact valid_generateId entropy
  · exact h

namespace Service

theorem valid_of_createArgs {req : Json} {a : Bytes × Json} (hreq : req.isUtf8 = true)
    (h : createArgs req = .ok a) : Utf8.Valid a.1 := by
  obtain ⟨docId, hid, h⟩ := bind_eq_ok_iff.mp h
  obtain ⟨data, -, h⟩ := bind_eq_ok_iff.mp h
  obtain rfl := Except.ok.inj h
  rw [Json.stringIfAny] at hid
  split_ifs at hid
  · exact Json.valid_of_stringAt hreq hid
  · obtain rfl := Except.ok.inj hid
    exact Utf8.valid_nil

section Handlers

variable {text : JsonText} {codec : Codec} {d : Delivery} {req : Json} {s : Serving}

theorem comesThrough_create_collection (hs : s.Blank) (hreq : req.isUtf8 = true)
    (hdb : s.engine.db_ = .opened) :
    ComesThrough (handle_create_collection req) s (∀ name result o w,
      req.stringAt (Bytes.ofText "collection_name") = .ok name →
        (s.objects.createCollection name).run (.refusing s.engine s.refusals) =
          (.ret (result, o), w) → result.Told) := by
  rcases hname : req.stringAt (Bytes.ofText "collection_name") with exn | name
  · exact comesThrough_of_unnamed hs hname fun _ _ _ _ h => by cases h
  obtain ⟨result, o, w, hrun⟩ := s.objects.exists_run_createCollection name s.refusals hdb
  refine Or.inl ⟨_, _, _, ends_create_collection hs hname hrun, ?_⟩
  rw [created, isUtf8_concluded (fun _ x hx => ?_) (by decide)]
  · constructor
    · intro htold name' result' o' w' hname' hrun'
      obtain rfl := Except.ok.inj hname'
      obtain ⟨hret, -⟩ := Prod.mk.inj (hrun.symm.trans hrun')
      rwa [← (Prod.mk.inj (Outcome.ret.inj hret)).1]
    · exact fun h => h name result o w rfl hrun
  · rw [List.mem_singleton.mp hx]
    exact ⟨valid_message, (Json.valid_of_stringAt hreq hname).append (by decide)⟩

theorem comesThrough_delete_collection (hs : s.Blank) (hreq : req.isUtf8 = true) :
    ComesThrough (handle_delete_collection req) s (∀ name,
      req.stringAt (Bytes.ofText "collection_name") = .ok name →
        name ∈ s.engine.columnFamilies_ ∧ ∀ result o w,
          (s.objects.dropCollection name).run (.refusing s.engine s.refusals) =
            (.ret (result, o), w) → result.Told) := by
  rcases hname : req.stringAt (Bytes.ofText "collection_name") with exn | name
  · exact comesThrough_of_unnamed hs hname fun _ h => by cases h
  by_cases hfamily : name ∈ s.engine.columnFamilies_
  · have hrun := Objects.run_dropCollection_of_mem (o := s.objects) (r := s.refusals) hfamily
    refine Or.inl ⟨_, _, _, ends_delete_collection hs hname hrun, ?_⟩
    rw [deleted, isUtf8_concluded (fun _ x hx => ?_) (by decide)]
    · constructor
      · intro htold name' hname'
        obtain rfl := Except.ok.inj hname'
        refine ⟨hfamily, fun result' o' w' hrun' => ?_⟩
        obtain ⟨hret, -⟩ := Prod.mk.inj (hrun.symm.trans hrun')
        rwa [← (Prod.mk.inj (Outcome.ret.inj hret)).1]
      · exact fun h => (h name rfl).2 _ _ _ hrun
    · rw [List.mem_singleton.mp hx]
      exact ⟨valid_message, (Json.valid_of_stringAt hreq hname).append (by decide)⟩
  · have hraise := Objects.run_dropCollection_of_notMem (o := s.objects) (r := s.refusals) hfamily
    refine Or.inr ⟨crashes_delete_collection hname (Prod.ext hraise rfl), fun h => ?_⟩
    exact hfamily (h name rfl).1

theorem comesThrough_get_collections (hs : s.Blank) : ComesThrough handle_get_collections s
    (∀ name ∈ s.engine.getCollectionNames, Utf8.Valid name) := by
  refine Or.inl ⟨_, _, _, ends_get_collections hs, ?_⟩
  rw [← valid_commaList]
  constructor
  · intro h
    have hfind : (answered [(Bytes.ofText "Collections",
        commaList s.engine.getCollectionNames)]).find? (Bytes.ofText "Collections") =
          some (.string (commaList s.engine.getCollectionNames)) := rfl
    exact Json.isUtf8_string.mp (Json.isUtf8_of_find? h hfind)
  · intro h
    refine isUtf8_answered fun x hx => ?_
    rw [List.mem_singleton.mp hx]
    exact ⟨show Utf8.Valid (Bytes.ofText "Collections") by decide, h⟩

theorem comesThrough_get_indexes (hs : s.Blank) (hreq : req.isUtf8 = true) :
    ComesThrough (handle_get_indexes req) s (s.opening req (.ok ()) ≠ .undefined ∧
      ∀ name, s.opening req (.ok ()) = .onto name () →
        ∀ index ∈ s.engine.getIndexNames name, Utf8.Valid index) := by
  rcases hopening : s.opening req (.ok ()) with complaint | _ | ⟨name, _⟩
  · rw [handle_get_indexes_eq]
    refine comesThrough_of_refused hs hreq (Tells.ok ()) hopening ⟨by simp, fun name h => ?_⟩
    cases h
  · refine Or.inr ⟨?_, fun h => h.1 rfl⟩
    rw [handle_get_indexes_eq]
    exact crashes_of_opening hopening
  refine Or.inl ⟨_, _, _, ends_get_indexes hs hopening, ?_⟩
  have hname := Json.valid_of_stringAt hreq (Server.opening_eq_onto_iff.mp hopening).1
  constructor
  · refine fun h => ⟨by simp, fun name' hname' => ?_⟩
    obtain ⟨rfl, -⟩ := Opening.onto.inj hname'
    have hfind : (answered [(Bytes.ofText "collection", name), (Bytes.ofText "indexList",
        commaList (s.engine.getIndexNames name))]).find? (Bytes.ofText "indexList") =
          some (.string (commaList (s.engine.getIndexNames name))) := rfl
    exact valid_commaList.mp (Json.isUtf8_string.mp (Json.isUtf8_of_find? h hfind))
  · intro h
    have hindexes := valid_commaList.mpr (h.2 name rfl)
    refine isUtf8_answered fun x hx => ?_
    rcases List.mem_cons.mp hx with rfl | hx
    · exact ⟨show Utf8.Valid (Bytes.ofText "collection") by decide, hname⟩
    · rw [List.mem_singleton.mp hx]
      exact ⟨show Utf8.Valid (Bytes.ofText "indexList") by decide, hindexes⟩

/-- What is answered to a call that went well: a message, and an id before it. -/
theorem valid_of_mem_docId {id text : Bytes} (hid : Utf8.Valid id) (htext : Utf8.Valid text)
    {x : Bytes × Bytes} (hx : x ∈ [(Bytes.ofText "docId", id), (message, text)]) :
    Utf8.Valid x.1 ∧ Utf8.Valid x.2 := by
  rcases List.mem_cons.mp hx with rfl | hx
  · exact ⟨show Utf8.Valid (Bytes.ofText "docId") by decide, hid⟩
  · rw [List.mem_singleton.mp hx]
    exact ⟨valid_message, htext⟩

theorem comesThrough_create_document (hs : s.Blank) (hreq : req.isUtf8 = true) :
    ComesThrough (handle_create_document codec d req) s (CallTold s req (createArgs req)
      (fun a c => c.createDocument codec d.entropy ⟨a.1, a.2⟩) Prod.fst) := by
  rw [handle_create_document_eq]
  refine comesThrough_callOn hs hreq (tells_createArgs req) (fun name a exn w hrun => ?_)
    (fun name a b w hopening hrun x hx => ?_) fun name hname => Utf8.Valid.append (by decide) hname
  · exact (Collection.raises_createDocument d.entropy ⟨a.1, a.2⟩).of_run hrun
  · obtain ⟨hname, -, hargs, -⟩ := Server.opening_eq_onto_iff.mp hopening
    have hvalid := Json.valid_of_stringAt hreq hname
    refine valid_of_mem_docId ?_ (Utf8.Valid.append (by decide) hvalid) hx
    rw [(Collection.returns_createDocument d.entropy ⟨a.1, a.2⟩).of_run hrun]
    exact Collection.valid_assignId (valid_of_createArgs hreq hargs)

theorem comesThrough_delete_document (hs : s.Blank) (hreq : req.isUtf8 = true)
    (hcodec : codec.ThrowsText) :
    ComesThrough (handle_delete_document codec req) s
      (req.contains (Bytes.ofText "document_id") = true →
        CallTold s req (req.stringAt (Bytes.ofText "document_id"))
          (fun docId c => c.deleteDocument codec docId) id) := by
  rcases hcontains : req.contains (Bytes.ofText "document_id") with _ | _
  · -- nothing is done, not even with the pointer
    have hhandler : handle_delete_document codec req = onCollection req fun _ => pure () := by
      rw [handle_delete_document]
      simp only [hcontains, Bool.false_eq_true, if_false]
    rw [hhandler]
    rcases hname : req.stringAt (Bytes.ofText "collection_name") with exn | name
    · exact comesThrough_of_unnamed hs hname fun h => by cases h
    by_cases hfinds : s.Finds name
    · exact .of_isUtf8 ⟨s.looked name, run_onCollection hname hfinds, rfl, hs.1, hs.2⟩ rfl
        fun h => by cases h
    · have hvalid := Json.valid_of_stringAt hreq hname
      exact .of_complaint (ends_of_not_finds hs hname hfinds)
        ((Utf8.Valid.append (by decide) hvalid).append (by decide)) fun h => by cases h
  · rw [handle_delete_document_eq codec req hcontains]
    rw [imp_iff_right rfl]
    refine comesThrough_callOn hs hreq (req.tells_stringAt _) (fun name docId exn w hrun => ?_)
      (fun name docId b w hopening hrun x hx => ?_) fun name hname => Utf8.Valid.append (by decide) hname
    · exact (Collection.raises_deleteDocument hcodec docId).of_run hrun
    · obtain ⟨hname, -, hargs, -⟩ := Server.opening_eq_onto_iff.mp hopening
      have hvalid := Json.valid_of_stringAt hreq hname
      exact valid_of_mem_docId (Json.valid_of_stringAt hreq hargs)
        (Utf8.Valid.append (by decide) hvalid) hx

/-- The handlers that create an index, whatever they say of it. -/
theorem comesThrough_index (hs : s.Blank) (hreq : req.isUtf8 = true) (hcodec : codec.ThrowsText)
    (hdb : s.engine.db_ = .opened) {did failure : Bytes} (hdid : Utf8.Valid did)
    (hfailure : Utf8.Valid failure) :
    ComesThrough (callOn req (req.stringAt (Bytes.ofText "field"))
      (fun field c => c.createIndex codec none field) id (fun _ field _ => [(message, did ++ field)])
      fun name => failure ++ name) s (CallTold s req (req.stringAt (Bytes.ofText "field"))
        (fun field c => c.createIndex codec none field) id) := by
  refine comesThrough_callOn hs hreq (req.tells_stringAt _) (fun name field exn w hrun => ?_)
    (fun name field b w hopening hrun x hx => ?_) fun name hname => hfailure.append hname
  · exact absurd (congrArg Prod.fst hrun) (Collection.run_createIndex_ne_raise _ _ hcodec hdb)
  · obtain ⟨-, -, hargs, -⟩ := Server.opening_eq_onto_iff.mp hopening
    rw [List.mem_singleton.mp hx]
    exact ⟨valid_message, hdid.append (Json.valid_of_stringAt hreq hargs)⟩

theorem comesThrough_export (hs : s.Blank) (hreq : req.isUtf8 = true) :
    ComesThrough (handle_export_collection text codec d req) s
      (s.opening req (req.stringAt (Bytes.ofText "dest_dir")) ≠ .undefined ∧ ∀ name destDir,
        s.opening req (req.stringAt (Bytes.ofText "dest_dir")) = .onto name destDir →
          s.engine.Dumps text codec d.os name destDir) := by
  rcases hopening : s.opening req (req.stringAt (Bytes.ofText "dest_dir")) with
    complaint | _ | ⟨name, destDir⟩
  · rw [handle_export_collection_eq]
    refine comesThrough_of_refused hs hreq (req.tells_stringAt _) hopening ⟨by simp, ?_⟩
    intro name destDir h
    cases h
  · refine Or.inr ⟨?_, fun h => h.1 rfl⟩
    rw [handle_export_collection_eq]
    exact crashes_of_opening hopening
  have hdumps := s.engine.exportAllToJson_ok_iff text codec d.os name destDir s.files
  rcases hexport : s.engine.exportAllToJson text codec d.os s.files name destDir with
    ⟨exn | result, files⟩
  · refine Or.inr ⟨crashes_export hopening hexport, fun h => ?_⟩
    obtain ⟨result, hresult⟩ := hdumps.mpr (h.2 name destDir rfl)
    rw [hexport] at hresult
    cases hresult
  · obtain ⟨hname, -, hargs, -⟩ := Server.opening_eq_onto_iff.mp hopening
    refine .of_isUtf8 (ends_export hs hopening hexport) (isUtf8_answered fun x hx => ?_)
      ⟨by simp, fun name' destDir' h => ?_⟩
    · rcases List.mem_cons.mp hx with rfl | hx
      · exact ⟨valid_status, by decide⟩
      · rw [List.mem_singleton.mp hx]
        refine ⟨valid_message, Utf8.Valid.append (Utf8.Valid.append ?_ (by decide)) ?_⟩
        · exact Utf8.Valid.append (by decide) (Json.valid_of_stringAt hreq hname)
        · exact Json.valid_of_stringAt hreq hargs
    · obtain ⟨rfl, rfl⟩ := Opening.onto.inj h
      exact hdumps.mp ⟨result, by rw [hexport]⟩

end Handlers

end Service

/-! ### Which requests come to a reply -/

namespace Server

variable (text : JsonText) (codec : Codec) (s : Server) (d : Delivery)

/-- **There is a reply.** -/
def Returns : Prop := ∃ reply s', s.serve text codec d = (.ret reply, s')

/-- What has been read can be told: the message of the status, or the data of the document, with
success as their status. -/
def CanTell : Except Status Document → Prop
  | .error result => Utf8.Valid result.msg
  | .ok doc => ∃ resp, doc.data_.setMember Service.status (.string Service.success) = .ok resp ∧
      resp.isUtf8 = true

/-- **The condition on a command.** -/
def Survives (req : Json) : Command → Prop
  | .create_collection => ∀ name result o w, req.stringAt (Bytes.ofText "collection_name") = .ok name →
      (s.objects.createCollection name).run (.refusing s.engine d.refusals) = (.ret (result, o), w) →
        result.Told
  | .delete_collection => ∀ name, req.stringAt (Bytes.ofText "collection_name") = .ok name →
      name ∈ s.engine.columnFamilies_ ∧ ∀ result o w,
        (s.objects.dropCollection name).run (.refusing s.engine d.refusals) = (.ret (result, o), w) →
          result.Told
  | .get_collections => ∀ name ∈ s.engine.getCollectionNames, Utf8.Valid name
  | .create_document => Service.CallTold (s.begun text d) req (Service.createArgs req)
      (fun a c => c.createDocument codec d.entropy ⟨a.1, a.2⟩) Prod.fst
  | .delete_document => req.contains (Bytes.ofText "document_id") = true →
      Service.CallTold (s.begun text d) req (req.stringAt (Bytes.ofText "document_id"))
        (fun docId c => c.deleteDocument codec docId) id
  | .create_index | .delete_index =>
      Service.CallTold (s.begun text d) req (req.stringAt (Bytes.ofText "field"))
        (fun field c => c.createIndex codec none field) id
  | .get_indexes => s.opening req (.ok ()) ≠ .undefined ∧ ∀ name,
      s.opening req (.ok ()) = .onto name () → ∀ index ∈ s.engine.getIndexNames name, Utf8.Valid index
  | .read_document =>
    match s.opening req (Service.readArgs req) with
    | .refused _ => True
    | .undefined => False
    | .onto name (.inl docId) => ∀ result,
        s.engine.readDocument codec ((s.begun text d).looked name).refusals.head name docId =
          .ok result → CanTell result
    | .onto _ (.inr _) => True
  | .find_documents =>
    match s.opening req (Service.findArgs req) with
    | .refused _ => True
    | .undefined => False
    | .onto name query => ∀ u,
        Collection.findDocument codec ⟨name⟩ s.engine query ≠ .error (.undefined u)
  | .export_collection => s.opening req (req.stringAt (Bytes.ofText "dest_dir")) ≠ .undefined ∧
      ∀ name destDir, s.opening req (req.stringAt (Bytes.ofText "dest_dir")) = .onto name destDir →
        s.engine.Dumps text codec d.os name destDir

/-- **Where a request leaves the server alive**: what the parser throws can be told, and if there is
a command, its condition is met. -/
def LivesOn : Prop :=
  (∀ what, text.parse d.payload = .error what → Utf8.Valid what) ∧
    ∀ command req, text.asked d.payload = .ok (command, req) → s.Survives text codec d req command

variable {text codec s d} {command : Command} {req resp : Json} {e : StorageEngine}
  {failed : Bool} {P : Prop}

theorem Answers.returns_iff_isUtf8 (h : s.Answers text codec d e resp failed) :
    s.Returns text codec d ↔ resp.isUtf8 = true := by
  obtain ⟨s', hserve, -⟩ := h
  rw [← text.dump_ok_iff]
  constructor
  · rintro ⟨reply, s₁, hreply⟩
    obtain ⟨hret, -⟩ := Prod.mk.inj (hserve.symm.trans hreply)
    rcases hdump : text.dump resp with what | dumped
    · rw [hdump] at hret
      cases hret
    · exact ⟨dumped, rfl⟩
  · rintro ⟨dumped, hdump⟩
    rw [hdump] at hserve
    exact ⟨dumped, s', hserve⟩

theorem not_returns_of_crashes (h : s.Crashes text codec d) : ¬s.Returns text codec d := by
  rintro ⟨reply, s', hserve⟩
  obtain ⟨u, hu⟩ := h
  rw [hserve] at hu
  cases hu

/-- A handler that comes through where a condition holds. -/
theorem returns_iff_of_comesThrough (hasked : text.asked d.payload = .ok (command, req))
    (h : Service.ComesThrough (command.handle text codec d req (text.topic d.payload))
      (s.begun text d) P) : s.Returns text codec d ↔ P := by
  rcases h with ⟨e, resp, failed, hends, hresp⟩ | ⟨hcrashes, hP⟩
  · exact (answers_of_ends hasked hends).returns_iff_isUtf8.trans hresp
  · exact iff_of_false (not_returns_of_crashes (crashes_of_crashes hasked hcrashes)) hP

/-- **Where success is set afterwards**, there has to be an object or nothing to set it in. -/
theorem returns_iff_of_succeeded {x : Service Unit}
    (hasked : text.asked d.payload = .ok (command, req))
    (hhandle : command.handle text codec d req (text.topic d.payload) =
      (do x; Service.set Service.status (.string Service.success)))
    (h : Service.Ends x (s.begun text d) e resp failed) : s.Returns text codec d ↔
      ∃ resp', resp.setMember Service.status (.string Service.success) = .ok resp' ∧
        resp'.isUtf8 = true := by
  rcases answers_or_escapes hasked hhandle h with
    ⟨resp', hset, hanswers⟩ | ⟨⟨exn, hset⟩, what, s₁, hescapes, -⟩
  · rw [hanswers.returns_iff_isUtf8]
    constructor
    · exact fun hutf8 => ⟨resp', hset, hutf8⟩
    · rintro ⟨resp'', hset', hutf8⟩
      rwa [Except.ok.inj (hset.symm.trans hset')]
  · refine iff_of_false ?_ ?_
    · rintro ⟨reply, s', hserve⟩
      cases (Prod.mk.inj (hserve.symm.trans hescapes)).1
    · rintro ⟨resp', hset', -⟩
      cases hset.symm.trans hset'

/-- What has no members yet, or is a complaint, comes to a reply. -/
theorem returns_of_succeeded {x : Service Unit}
    (hasked : text.asked d.payload = .ok (command, req))
    (hhandle : command.handle text codec d req (text.topic d.payload) =
      (do x; Service.set Service.status (.string Service.success)))
    (h : Service.Ends x (s.begun text d) e resp failed) (hresp : resp.isUtf8 = true)
    (hmembers : resp = .null ∨ resp.isObject = true) : s.Returns text codec d := by
  obtain ⟨resp', hset⟩ : ∃ resp',
      resp.setMember Service.status (.string Service.success) = .ok resp' := by
    cases resp with
    | null => exact ⟨_, rfl⟩
    | object members => exact ⟨_, rfl⟩
    | _ => exact absurd hmembers (by simp [Json.isObject])
  exact (returns_iff_of_succeeded hasked hhandle h).mpr
    ⟨resp', hset, Service.isUtf8_of_succeeded hresp hset⟩

/-- What asks for nothing comes to a reply if what the parser throws can be told. -/
theorem returns_iff_of_not_asked {complaint : Bytes}
    (hasked : text.asked d.payload = .error complaint) : s.Returns text codec d ↔
      ∀ what, text.parse d.payload = .error what → Utf8.Valid what := by
  have hanswers : s.Answers text codec d s.engine (Service.complaint complaint) true :=
    answers_of_not_asked hasked
  rw [hanswers.returns_iff_isUtf8, Service.isUtf8_complaint]
  -- where the request was parsed, whatever the complaint repeats is UTF-8
  have hparsed {req : Json} (hparse : text.parse d.payload = .ok req)
      (hvalid : Utf8.Valid complaint) : Utf8.Valid complaint ↔
        ∀ what, text.parse d.payload = .error what → Utf8.Valid what :=
    iff_of_true hvalid fun what h => by cases hparse.symm.trans h
  rcases JsonText.asked_eq_error hasked with
    ⟨what, hfields, rfl⟩ | ⟨req, cmd, req_id, hfields, -, rfl⟩
  · rcases JsonText.fields_eq_error hfields with ⟨_, hparse, ⟨rfl⟩⟩ | ⟨req, field, hparse, hstring⟩
    · rw [Utf8.valid_append_iff (by decide)]
      refine ⟨fun hwhat what' hwhat' => ?_, fun h => h what hparse⟩
      exact Except.error.inj (hparse.symm.trans hwhat') ▸ hwhat
    · obtain ⟨_, ⟨rfl⟩, hwhat⟩ := req.throwsText_stringAt _ _ hstring
      exact hparsed hparse (Utf8.Valid.append (by decide) hwhat)
  · obtain ⟨hparse, hcmd, -⟩ := JsonText.fields_eq_ok_iff.mp hfields
    have hvalid := Json.valid_of_stringAt (text.isUtf8_of_parse hparse) hcmd
    exact hparsed hparse (Utf8.Valid.append (by decide) hvalid)

/-- What is asked was parsed. -/
theorem isUtf8_of_asked (hasked : text.asked d.payload = .ok (command, req)) :
    req.isUtf8 = true := by
  obtain ⟨cmd, req_id, hfields, -⟩ := JsonText.asked_eq_ok hasked
  exact text.isUtf8_of_parse (JsonText.fields_eq_ok_iff.mp hfields).1

/-! ### The commands that read -/

theorem returns_iff_reads (hcodec : codec.ThrowsText)
    (hasked : text.asked d.payload = .ok (.read_document, req)) :
    s.Returns text codec d ↔ s.Survives text codec d req .read_document := by
  have hs := blank_begun text s d
  have hreq := isUtf8_of_asked hasked
  -- what success is set after
  have hreturns {e : StorageEngine} {resp : Json} {failed : Bool}
      (h : Service.Ends (Service.handle_read_document text codec req (text.topic d.payload))
        (s.begun text d) e resp failed) (hresp : resp.isUtf8 = true)
      (hmembers : resp = .null ∨ resp.isObject = true) : s.Returns text codec d :=
    returns_of_succeeded hasked rfl h hresp hmembers
  rw [Survives]
  rcases hopening : s.opening req (Service.readArgs req) with complaint | _ | ⟨name, docId | limit⟩
  · have hvalid := valid_of_refused hreq (Service.tells_readArgs req) hopening
    have hends : Service.Ends (Service.handle_read_document text codec req (text.topic d.payload))
        (s.begun text d) s.engine (Service.complaint complaint) true :=
      Service.handle_read_document_eq ▸ Service.ends_of_refused hs hopening
    exact iff_of_true (hreturns hends (Service.isUtf8_complaint.mpr hvalid) (Or.inr rfl)) trivial
  · refine iff_of_false (not_returns_of_crashes (crashes_of_crashes hasked ?_)) id
    refine Service.Crashes.bind ?_
    exact Service.handle_read_document_eq ▸ Service.crashes_of_opening hopening
  · obtain ⟨result, hread⟩ := s.engine.exists_readDocument hcodec
      ((s.begun text d).looked name).refusals.head name docId
    have hread' : s.Returns text codec d ↔ CanTell result := by
      rcases result with status | doc
      · have hends : Service.Ends (Service.handle_read_document text codec req
            (text.topic d.payload)) (s.begun text d) s.engine _ _ :=
          Service.ends_read_one_of_error hs hopening hread
        rw [returns_iff_of_succeeded hasked rfl hends, CanTell]
        constructor
        · rintro ⟨resp', hset, hutf8⟩
          have hfind : resp'.find? Service.message = some (.string status.msg) :=
            (Json.find?_of_setMember_of_ne hset (by decide)).trans rfl
          exact Json.isUtf8_string.mp (Json.isUtf8_of_find? hutf8 hfind)
        · intro hvalid
          have hfailure : Utf8.Valid (Bytes.ofText "failed to read document") := by decide
          have hutf8 := (Service.isUtf8_failed hfailure).mpr hvalid
          exact ⟨_, rfl, Service.isUtf8_of_succeeded hutf8 rfl⟩
      · have hends : Service.Ends (Service.handle_read_document text codec req
            (text.topic d.payload)) (s.begun text d) s.engine _ _ :=
          Service.ends_read_one hs hopening hread
        rw [returns_iff_of_succeeded hasked rfl hends]
        rfl
    rw [hread']
    constructor
    · rintro htell result' hresult'
      rwa [← Except.ok.inj (hread.symm.trans hresult')]
    · exact fun h => h result hread
  · refine iff_of_true ?_ trivial
    rcases hsend : Service.sending text codec ((s.engine.cursor name).take limit.toNat) with exn | _
    · obtain ⟨what, rfl, hwhat⟩ := Service.throwsText_sending hcodec _ exn hsend
      refine hreturns (Service.ends_read_all_of_error hs hopening hsend) ?_ (Or.inr rfl)
      exact Service.isUtf8_complaint.mpr (Utf8.Valid.append (by decide) hwhat)
    · exact hreturns (Service.ends_read_all hs hopening hsend) rfl (Or.inl rfl)

theorem returns_iff_finds (hcodec : codec.ThrowsText)
    (hasked : text.asked d.payload = .ok (.find_documents, req)) :
    s.Returns text codec d ↔ s.Survives text codec d req .find_documents := by
  have hs := blank_begun text s d
  have hreq := isUtf8_of_asked hasked
  have hreturns {e : StorageEngine} {resp : Json} {failed : Bool}
      (h : Service.Ends (Service.handle_find_documents text codec req (text.topic d.payload))
        (s.begun text d) e resp failed) (hresp : resp.isUtf8 = true)
      (hmembers : resp = .null ∨ resp.isObject = true) : s.Returns text codec d :=
    returns_of_succeeded hasked rfl h hresp hmembers
  rw [Survives]
  rcases hopening : s.opening req (Service.findArgs req) with complaint | _ | ⟨name, query⟩
  · have hvalid := valid_of_refused hreq (Service.tells_findArgs req) hopening
    have hends : Service.Ends (Service.handle_find_documents text codec req (text.topic d.payload))
        (s.begun text d) s.engine (Service.complaint complaint) true :=
      Service.handle_find_documents_eq ▸ Service.ends_of_refused hs hopening
    exact iff_of_true (hreturns hends (Service.isUtf8_complaint.mpr hvalid) (Or.inr rfl)) trivial
  · refine iff_of_false (not_returns_of_crashes (crashes_of_crashes hasked ?_)) id
    refine Service.Crashes.bind ?_
    exact Service.handle_find_documents_eq ▸ Service.crashes_of_opening hopening
  rcases hfind : Collection.findDocument codec ⟨name⟩ s.engine query with (what | u) | docIds
  · have hwhat := Collection.tells_findDocument ⟨name⟩ s.engine query what hfind
    refine iff_of_true (hreturns (Service.ends_find_of_exception hs hopening hfind) ?_ (Or.inr rfl))
      fun u h => by cases hfind.symm.trans h
    exact Service.isUtf8_complaint.mpr (Utf8.Valid.append (by decide) hwhat)
  · refine iff_of_false (not_returns_of_crashes (crashes_of_crashes hasked ?_)) fun h => h u hfind
    exact (Service.crashes_find text codec (text.topic d.payload) hopening hfind).bind
  · refine iff_of_true ?_ fun u h => by cases hfind.symm.trans h
    rcases Service.ends_find text (text.topic d.payload) hcodec hs hopening hfind with
      ⟨failed, hends, -⟩ | ⟨what, hwhat, -, hends⟩
    · exact hreturns hends rfl (Or.inl rfl)
    · refine hreturns hends ?_ (Or.inr rfl)
      exact Service.isUtf8_complaint.mpr (Utf8.Valid.append (by decide) hwhat)

/-! ### Every payload, in every state -/

/-- **A request is survived exactly where the condition on it is met**, whatever the payload and
whatever has been done before. -/
theorem returns_iff_livesOn (hreachable : s.Reachable text codec) (hcodec : codec.ThrowsText) :
    s.Returns text codec d ↔ s.LivesOn text codec d := by
  rcases hasked : text.asked d.payload with complaint | ⟨command, req⟩
  · rw [returns_iff_of_not_asked hasked, LivesOn]
    refine (and_iff_left ?_).symm
    intro command req h
    cases hasked.symm.trans h
  have hreq := isUtf8_of_asked hasked
  have hs := blank_begun text s d
  have hdb : (s.begun text d).engine.db_ = .opened := hreachable.opened
  suffices hsurvives : s.Returns text codec d ↔ s.Survives text codec d req command by
    rw [hsurvives, LivesOn]
    constructor
    · refine fun h => ⟨fun what hwhat => ?_, fun command' req' h' => ?_⟩
      · rw [JsonText.asked, JsonText.fields, hwhat] at hasked
        cases hasked
      · obtain ⟨rfl, rfl⟩ := Prod.mk.inj (Except.ok.inj (hasked.symm.trans h'))
        exact h
    · exact fun h => h.2 command req hasked
  -- one command after the other
  have hcomes {P : Prop} (h : Service.ComesThrough
      (command.handle text codec d req (text.topic d.payload)) (s.begun text d) P) :
      s.Returns text codec d ↔ P := returns_iff_of_comesThrough hasked h
  cases command with
  | create_collection => exact hcomes (Service.comesThrough_create_collection hs hreq hdb)
  | delete_collection => exact hcomes (Service.comesThrough_delete_collection hs hreq)
  | create_document => exact hcomes (Service.comesThrough_create_document hs hreq)
  | delete_document => exact hcomes (Service.comesThrough_delete_document hs hreq hcodec)
  | read_document => exact returns_iff_reads hcodec hasked
  | create_index =>
    exact hcomes (Service.comesThrough_index hs hreq hcodec hdb (by decide) (by decide))
  | delete_index =>
    exact hcomes (Service.comesThrough_index hs hreq hcodec hdb (by decide) (by decide))
  | get_collections => exact hcomes (Service.comesThrough_get_collections hs)
  | get_indexes => exact hcomes (Service.comesThrough_get_indexes hs hreq)
  | export_collection => exact hcomes (Service.comesThrough_export hs hreq)
  | find_documents => exact returns_iff_finds hcodec hasked

/-- On a new server the condition is met by a request for a collection. -/
theorem livesOn_creating :
    (started .fresh).LivesOn .standard .standard (.named "create_collection" "c") := by
  obtain ⟨reply, hreply⟩ : ∃ reply,
      (started .fresh).replyTo? (.named "create_collection" "c") = some reply :=
    Option.isSome_iff_exists.mp (by decide +kernel)
  exact (returns_iff_livesOn (reachable_started rfl) Codec.throwsText_standard).mp
    ⟨reply, _, serve_of_replyTo? hreply⟩

/-- A complaint of the parser that cannot be told leaves `handle_request`, whatever the state. -/
theorem escapes_of_parse_error {what : Bytes} (hparse : text.parse d.payload = .error what)
    (hwhat : ¬Utf8.Valid what) : ∃ exn s',
      s.serve text codec d = (.raise (.exception exn), s') := by
  have hasked : text.asked d.payload = .error (Bytes.ofText "Exception :" ++ what) := by
    rw [JsonText.asked, JsonText.fields, hparse]
    rfl
  obtain ⟨s', hserve, -⟩ : s.Answers text codec d s.engine
      (Service.complaint (Bytes.ofText "Exception :" ++ what)) true := answers_of_not_asked hasked
  rcases hdump : text.dump (Service.complaint (Bytes.ofText "Exception :" ++ what)) with
    exn | dumped
  · rw [hdump] at hserve
    exact ⟨exn, s', hserve⟩
  · have hvalid := Service.isUtf8_complaint.mp ((text.dump_ok_iff _).mp ⟨dumped, hdump⟩)
    exact absurd ((Utf8.valid_append_iff (by decide)).mp hvalid) hwhat

/-- **A byte ends a new server**: what the parser throws repeats it, so it gets into the reply, and
what `dump` throws of that leaves `handle_request`. -/
theorem escapes_byte : (started .fresh).Reachable .standard .standard ∧
    (∃ what s', (started .fresh).serve .standard .standard (.calm [255]) =
      (.raise (.exception what), s')) ∧
    ¬(started .fresh).Returns .standard .standard (.calm [255]) := by
  obtain ⟨what, hparse, hwhat⟩ : ∃ what, JsonText.standard.parse [255] = .error what ∧
      ¬Utf8.Valid what := by
    have htold : (match JsonText.standard.parse [255] with
      | .ok _ => true
      | .error what => decide (Utf8.Valid what)) = false := by decide +kernel
    rcases hparse : JsonText.standard.parse [255] with what | req
    · rw [hparse] at htold
      exact ⟨what, rfl, of_decide_eq_false htold⟩
    · rw [hparse] at htold
      cases htold
  obtain ⟨exn, s', hserve⟩ : ∃ exn s', (started .fresh).serve .standard .standard (.calm [255]) =
      (.raise (.exception exn), s') := escapes_of_parse_error hparse hwhat
  refine ⟨reachable_started rfl, ⟨exn, s', hserve⟩, ?_⟩
  rintro ⟨reply, s₁, hreply⟩
  cases hserve.symm.trans hreply

end Server

end AnuDB
