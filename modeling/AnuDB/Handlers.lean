import AnuDB.Requests

/-!
# The runs of the handlers

How the handlers run, in full. Looking a collection up is a function of the state
(`AnuDB.Serving.looked`), and there is a pointer in the end exactly if there was one, or the
database has an object or a family of the name (`AnuDB.Server.Finds`). Then a handler on a
collection reads its arguments and uses the pointer. What comes of all that is decided before
anything is done, and is known in advance (`AnuDB.Server.opening`): a complaint, undefined
behaviour, or the collection and the arguments to go on with.

What goes on then is a call and an answer. So it is enough to know of a handler what the engine
is in the end, what the reply is, and whether something went wrong (`AnuDB.Service.Ends`), or
that there is undefined behaviour (`AnuDB.Service.Crashes`).
-/

namespace AnuDB

open Effect

/-! ### Looking a collection up -/

namespace Server

variable (s : Server) (name : Bytes)

/-- There is a pointer, or an object, or a family of the name. -/
def Finds : Prop :=
  name ∈ s.collMap_ ∨ s.objects.find name ≠ none ∨ name ∈ s.engine.columnFamilies_

instance : Decidable (s.Finds name) := by unfold Finds; infer_instance

/-- There is a pointer, and it is null or not to the object that is held. -/
def Dangles : Prop :=
  name ∈ s.collMap_ ∧
    (s.collMap_[name]?.join = none ∨ s.collMap_[name]?.join ≠ s.objects.find name)

instance : Decidable (s.Dangles name) := by unfold Dangles; infer_instance

/-- There is a pointer, or there is an object the pointer of which is taken. -/
def Holds : Prop := name ∈ s.collMap_ ∨ s.objects.find name ≠ none

instance : Decidable (s.Holds name) := by unfold Holds; infer_instance

/-- The objects when a collection has been looked up. -/
def objectsLooked : Objects :=
  if ¬s.Holds name ∧ name ∈ s.engine.columnFamilies_ then s.objects.make name else s.objects

end Server

/-- The state when a collection has been looked up. -/
def Serving.looked (s : Serving) (name : Bytes) : Serving :=
  { s with
    objects := s.objectsLooked name
    refusals := if s.Holds name then s.refusals else s.refusals.tail
    collMap_ :=
      if name ∈ s.collMap_ then s.collMap_
      else match (s.objectsLooked name).find name with
        | some p => s.collMap_.insert name (some p)
        | none => s.collMap_ }

namespace Service

variable {s : Serving} {name : Bytes}

theorem run_database {α : Type} (method : Objects → Engine (α × Objects)) (s : Serving) :
    (database method).run s =
      match (method s.objects).run (.refusing s.engine s.refusals) with
      | (.ret (a, objects), w) => (.ret a, { s.after w with objects })
      | (.raise e, w) => (.raise e, s.after w)
      | (.stopped, w) => (.stopped, s.after w) := by
  change ((engine (method s.objects) >>= _ : Service α).run s) = _
  rw [Action.run_bind, Action.run, engine]
  rcases (method s.objects).run (.refusing s.engine s.refusals) with ⟨⟨a, objects⟩ | e | _, w⟩ <;>
    rfl

/-- **Looking a collection up.** -/
theorem run_lookup (name : Bytes) (s : Serving) :
    (lookup name).run s = (.ret (decide (s.Finds name)), s.looked name) := by
  change (if name ∈ s.collMap_ then pure true else _ : Service Bool).run s = _
  by_cases hname : name ∈ s.collMap_
  · have hholds : s.Holds name := Or.inl hname
    have hfinds : s.Finds name := Or.inl hname
    rw [if_pos hname, decide_eq_true hfinds, Serving.looked, Server.objectsLooked,
      if_pos hname, if_pos hholds, if_neg fun h => h.1 hholds]
    rfl
  rw [if_neg hname, Action.run_bind, run_database]
  rcases hfind : s.objects.find name with _ | p
  · have hholds : ¬s.Holds name := not_or.mpr ⟨hname, not_not.mpr hfind⟩
    rw [Objects.run_getCollection_of_none hfind, Serving.looked, Server.objectsLooked,
      if_neg hname, if_neg hholds]
    by_cases hfamily : name ∈ s.engine.columnFamilies_
    · have hfinds : s.Finds name := Or.inr (Or.inr hfamily)
      rw [if_pos hfamily, if_pos ⟨hholds, hfamily⟩, Objects.find_make, if_pos rfl,
        decide_eq_true hfinds]
      simp only [Serving.after_refusing]
      rfl
    · have hfinds : ¬s.Finds name := fun h => h.elim hname fun h => h.elim (· hfind) hfamily
      rw [if_neg hfamily, if_neg fun h => hfamily h.2, hfind, decide_eq_false hfinds]
      simp only [Serving.after_refusing]
      rfl
  · have hne : s.objects.find name ≠ none := by simp [hfind]
    have hholds : s.Holds name := Or.inr hne
    have hfinds : s.Finds name := Or.inr (Or.inl hne)
    rw [Objects.getCollection_of_find hfind, Serving.looked, Server.objectsLooked, if_neg hname,
      if_pos hholds, if_neg fun h => h.1 hholds, hfind, decide_eq_true hfinds]
    change ((keep name (some p) >>= fun _ => pure true : Service Bool).run
      { s.after (.refusing s.engine s.refusals) with objects := s.objects }) = _
    rw [Serving.after_refusing]
    rfl

/-- What is found is held, and its pointer is kept. -/
theorem exists_of_finds (hfinds : s.Finds name) (hname : name ∉ s.collMap_) :
    ∃ p, (s.objectsLooked name).find name = some p := by
  rw [Server.objectsLooked]
  by_cases hholds : s.Holds name
  · rw [if_neg fun h => h.1 hholds]
    exact Option.ne_none_iff_exists'.mp (hholds.resolve_left hname)
  · have hfamily : name ∈ s.engine.columnFamilies_ := by
      refine (hfinds.resolve_left hname).resolve_left fun hne => hholds (Or.inr hne)
    rw [if_pos ⟨hholds, hfamily⟩, Objects.find_make, if_pos rfl]
    exact ⟨_, rfl⟩

/-- A pointer that is used when its collection has been looked up is alive exactly if it did not
dangle before. -/
theorem run_collection (hfinds : s.Finds name) :
    (¬s.Dangles name ∧
      (collection name).run (s.looked name) = (.ret ⟨name⟩, s.looked name)) ∨
    (s.Dangles name ∧
      ∃ u, (collection name).run (s.looked name) = (.raise (.undefined u), s.looked name)) := by
  have hlooked : (s.looked name).objects = s.objectsLooked name := rfl
  rw [collection, Action.run_bind_of_ret (Action.run_get _), hlooked]
  by_cases hname : name ∈ s.collMap_
  · have hmap : (s.looked name).collMap_ = s.collMap_ := if_pos hname
    have hobjects : s.objectsLooked name = s.objects := if_neg fun h => h.1 (Or.inl hname)
    rw [hmap, hobjects]
    rcases hpointer : s.collMap_[name]?.join with _ | p
    · exact Or.inr ⟨⟨hname, Or.inl hpointer⟩, _, rfl⟩
    by_cases hfind : s.objects.find name = some p
    · refine Or.inl ⟨fun h => h.2.elim (by simp [hpointer]) (by simp [hpointer, hfind]), ?_⟩
      simp only [hfind, if_true, Objects.name_of_find hfind]
      rfl
    · refine Or.inr ⟨⟨hname, Or.inr ?_⟩, .danglingCollection, ?_⟩
      · exact hpointer ▸ Ne.symm hfind
      · simp only [hfind, if_false]
        rfl
  · obtain ⟨p, hp⟩ := exists_of_finds hfinds hname
    have hmap : (s.looked name).collMap_ = s.collMap_.insert name (some p) := by
      rw [Serving.looked]
      simp only [hname, if_false, hp]
    rw [hmap, Std.ExtTreeMap.getElem?_insert_self, Option.join_some]
    refine Or.inl ⟨fun h => hname h.1, ?_⟩
    simp only [hp, if_true, Objects.name_of_find hp]
    rfl

/-! ### What is put into the reply -/

/-- A reply that texts have been put into, one after the other. -/
def answered (fields : List (Bytes × Bytes)) : Json :=
  .object (fields.foldl (fun members x => Assoc.set x.1 (.string x.2) members) [])

theorem run_answer_of_object (fields : List (Bytes × Bytes)) {members : List (Bytes × Json)}
    (h : s.resp = .object members) : (answer fields).run s = (.ret (), { s with
      resp := .object
        (fields.foldl (fun members x => Assoc.set x.1 (.string x.2) members) members) }) := by
  induction fields generalizing s members with
  | nil =>
    rw [List.foldl_nil, ← h]
    rfl
  | cons x fields ih =>
    have hset : (set x.1 (.string x.2)).run s =
        (.ret (), { s with resp := .object (Assoc.set x.1 (.string x.2) members) }) := by
      rw [Action.run, set, h]
      rfl
    rw [answer, Action.run_bind_of_ret hset, ih rfl]
    rfl

/-- What is put into a reply there is nothing in. -/
theorem run_answer {fields : List (Bytes × Bytes)} (hne : fields ≠ []) (h : s.resp = .null) :
    (answer fields).run s = (.ret (), { s with resp := answered fields }) := by
  obtain ⟨x, fields, rfl⟩ := List.exists_cons_of_ne_nil hne
  have hset : (set x.1 (.string x.2)).run s =
      (.ret (), { s with resp := .object [(x.1, .string x.2)] }) := by
    rw [Action.run, set, h]
    rfl
  rw [answer, Action.run_bind_of_ret hset, run_answer_of_object fields rfl]
  rfl

theorem find?_foldl_set {fields : List (Bytes × Bytes)} {field : Bytes}
    (h : ∀ x ∈ fields, x.1 ≠ field) (members : List (Bytes × Json)) :
    (fields.foldl (fun members x => Assoc.set x.1 (.string x.2) members) members).lookup field =
      members.lookup field := by
  induction fields generalizing members with
  | nil => rfl
  | cons x fields ih =>
    rw [List.forall_mem_cons] at h
    rw [List.foldl_cons, ih h.2, Assoc.lookup_set_of_ne (Ne.symm h.1)]

/-- The first text is found, where no later one takes its place. -/
theorem find?_answered {fields : List (Bytes × Bytes)} {field text : Bytes}
    (h : ∀ x ∈ fields, x.1 ≠ field) :
    (answered ((field, text) :: fields)).find? field = some (.string text) := by
  change List.lookup field (fields.foldl _ _) = _
  rw [find?_foldl_set h, Assoc.lookup_set_self]

theorem find?_complaint (text : Bytes) :
    (complaint text).find? status = some (.string error) := rfl

/-- The reply to a call that reports a status. -/
def concluded (result : Status) (done : List (Bytes × Bytes)) (failure : Bytes) : Json :=
  if result.ok then answered ((status, success) :: done)
  else answered [(status, failure), (message, result.msg)]

end Service

/-- Nothing is in the reply, and nothing has gone wrong. -/
def Serving.Blank (s : Serving) : Prop := s.resp = .null ∧ s.failed = false

namespace Service

variable {s : Serving}

theorem run_conclude (hs : s.Blank) (result : Status) (done : List (Bytes × Bytes))
    (failure : Bytes) : (conclude result done failure).run s =
      (.ret (), { s with failed := !result.ok, resp := concluded result done failure }) := by
  have hreport : (report result.ok).run s = (.ret (), { s with failed := !result.ok }) := by
    rw [report, Action.run_modify, hs.2, Bool.false_or]
  rw [conclude, Action.run_bind_of_ret hreport, concluded]
  split_ifs
  · exact run_answer (List.cons_ne_nil _ _) hs.1
  · exact run_answer (List.cons_ne_nil _ _) hs.1

/-! ### How a handler ends -/

/-- **A handler returns**: what the engine is, and the reply, and whether something went wrong. -/
def Ends (x : Service Unit) (s : Serving) (e : StorageEngine) (resp : Json) (failed : Bool) : Prop :=
  ∃ s', x.run s = (.ret (), s') ∧ s'.engine = e ∧ s'.resp = resp ∧ s'.failed = failed

/-- An exception is thrown, before anything is in the reply. -/
def Throws (x : Service Unit) (s : Serving) (e : StorageEngine) (what : Bytes) : Prop :=
  ∃ s', x.run s = (.raise (.exception what), s') ∧ s'.engine = e ∧ s'.resp = .null

/-- There is undefined behaviour. -/
def Crashes (x : Service Unit) (s : Serving) : Prop := ∃ u s', x.run s = (.raise (.undefined u), s')

section Catching

variable {heading : Bytes} {x : Service Unit} {e : StorageEngine}

theorem Ends.catching {resp : Json} {failed : Bool} (h : Ends x s e resp failed)
    (heading : Bytes) : Ends (catching heading x) s e resp failed := by
  obtain ⟨s', hrun, hs'⟩ := h
  refine ⟨s', ?_, hs'⟩
  rw [Service.catching, Action.run_tryCatch, hrun]

theorem Crashes.catching (h : Crashes x s) (heading : Bytes) : Crashes (catching heading x) s := by
  obtain ⟨u, s', hrun⟩ := h
  refine ⟨u, s', ?_⟩
  rw [Service.catching, Action.run_tryCatch, hrun]
  rfl

theorem Crashes.bind {k : Unit → Service Unit} (h : Crashes x s) : Crashes (x >>= k) s := by
  obtain ⟨u, s', hrun⟩ := h
  exact ⟨u, s', Action.run_bind_of_raise hrun⟩

/-- What is thrown is put into the reply. -/
theorem Throws.catching {what : Bytes} (h : Throws x s e what) :
    Ends (catching heading x) s e (complaint (heading ++ what)) true := by
  obtain ⟨s', hrun, he, hresp⟩ := h
  refine ⟨{ s' with failed := true, resp := complaint (heading ++ what) }, ?_, he, rfl, rfl⟩
  rw [Service.catching, Action.run_tryCatch, hrun]
  exact run_complain hresp _

end Catching

/-- A call that is made, and then the rest. -/
theorem run_engine_bind {α β : Type} (p : Engine α) (k : α → Service β) (s : Serving) :
    (engine p >>= k).run s = match p.run (.refusing s.engine s.refusals) with
      | (.ret a, w) => (k a).run (s.after w)
      | (.raise exn, w) => (.raise exn, s.after w)
      | (.stopped, w) => (.stopped, s.after w) := by
  rw [Action.run_bind, Action.run, engine]
  rcases p.run (.refusing s.engine s.refusals) with ⟨a | exn | _, w⟩ <;> rfl

section Calls

variable {α : Type} {p : Engine α} {w : World} {k : α → Service Unit}

/-- A call that reports a status, and what is answered to it. -/
theorem ends_of_ret {a : α} {result : Status} {done : List (Bytes × Bytes)} {failure : Bytes}
    (hs : s.Blank) (hrun : p.run (.refusing s.engine s.refusals) = (.ret a, w))
    (hk : k a = conclude result done failure) :
    Ends (engine p >>= k) s w.engine (concluded result done failure) (!result.ok) := by
  have hconclude := run_conclude (s := s.after w) hs result done failure
  rw [← hk] at hconclude
  have hall : (engine p >>= k).run s = (k a).run (s.after w) := by rw [run_engine_bind, hrun]
  exact ⟨_, hall.trans hconclude, rfl, rfl, rfl⟩

theorem throws_of_raise {what : Bytes} (hs : s.Blank)
    (hrun : p.run (.refusing s.engine s.refusals) = (.raise (.exception what), w)) :
    Throws (engine p >>= k) s w.engine what := by
  refine ⟨s.after w, ?_, rfl, hs.1⟩
  rw [run_engine_bind, hrun]

theorem crashes_of_raise {u : Undefined}
    (hrun : p.run (.refusing s.engine s.refusals) = (.raise (.undefined u), w)) :
    Crashes (engine p >>= k) s := by
  refine ⟨u, s.after w, ?_⟩
  rw [run_engine_bind, hrun]

end Calls

end Service

/-! ### Handlers on a collection -/

/-- What comes of the beginning of a handler on a collection. -/
inductive Opening (α : Type) where
  /-- A complaint is answered, and nothing is done. -/
  | refused (text : Bytes) : Opening α
  /-- There is undefined behaviour. -/
  | undefined : Opening α
  /-- The handler goes on, with the collection and its arguments. -/
  | onto (name : Bytes) (a : α) : Opening α

/-- What comes of an exception. -/
def Opening.ofError {α : Type} : Exn → Opening α
  | .exception what => .refused (Bytes.ofText "Exception: " ++ what)
  | .undefined _ => .undefined

/-- **What comes of a request on a collection**, before anything is done. -/
def Server.opening {α : Type} (s : Server) (req : Json) (args : Except Exn α) : Opening α :=
  match req.stringAt (Bytes.ofText "collection_name") with
  | .error exn => .ofError exn
  | .ok name =>
    if s.Finds name then
      match args with
      | .error exn => .ofError exn
      | .ok a => if s.Dangles name then .undefined else .onto name a
    else .refused (Bytes.ofText "Collection :" ++ name ++ Bytes.ofText " is not found")

theorem Server.opening_eq_onto_iff {α : Type} {s : Server} {req : Json} {args : Except Exn α}
    {name : Bytes} {a : α} : s.opening req args = .onto name a ↔
      req.stringAt (Bytes.ofText "collection_name") = .ok name ∧ s.Finds name ∧ args = .ok a ∧
        ¬s.Dangles name := by
  rw [opening]
  rcases req.stringAt (Bytes.ofText "collection_name") with exn | name'
  · exact iff_of_false (by cases exn <;> simp [Opening.ofError]) fun h => by cases h.1
  rw [Except.ok.injEq]
  by_cases hfinds : s.Finds name'
  case neg =>
    simp only [hfinds, if_false]
    exact iff_of_false (by simp) fun h => hfinds (h.1 ▸ h.2.1)
  simp only [hfinds, if_true]
  rcases args with exn | a'
  · exact iff_of_false (by cases exn <;> simp [Opening.ofError]) fun h => by cases h.2.2.1
  by_cases hdangles : s.Dangles name'
  · simp only [hdangles, if_true]
    exact iff_of_false (by simp) fun h => h.2.2.2 (h.1 ▸ hdangles)
  · simp only [hdangles, if_false, Opening.onto.injEq, Except.ok.injEq]
    constructor
    · rintro ⟨rfl, rfl⟩
      exact ⟨rfl, hfinds, rfl, hdangles⟩
    · exact fun h => ⟨h.1, h.2.2.1⟩

namespace Service

variable {α : Type}

/-- What the handlers on a collection do that use it: they read their arguments, and then the
pointer is used. -/
def useOn (name : Bytes) (args : Except Exn α) (use : α → Collection → Service Unit) :
    Service Unit := do
  let a ← Action.ofExcept args
  let c ← collection name
  use a c

section UseOn

variable {s : Serving} {req : Json} {args : Except Exn α}
  {use : Bytes → α → Collection → Service Unit} {name : Bytes}

/-- Where a collection is found, the rest of the handler is run. -/
theorem run_onCollection {body : Bytes → Service Unit}
    (h : req.stringAt (Bytes.ofText "collection_name") = .ok name) (hfinds : s.Finds name) :
    (onCollection req body).run s =
      (catching (Bytes.ofText "Exception: ") (body name)).run (s.looked name) := by
  rw [onCollection, h, Action.ofExcept_ok, Action.pure_bind', catching, catching,
    Action.run_tryCatch, Action.run_bind_of_ret (run_lookup name s), decide_eq_true hfinds]
  rfl

/-- One that is not found is complained about. -/
theorem ends_of_not_finds {body : Bytes → Service Unit} (hs : s.Blank)
    (h : req.stringAt (Bytes.ofText "collection_name") = .ok name) (hfinds : ¬s.Finds name) :
    Ends (onCollection req body) s s.engine
      (complaint (Bytes.ofText "Collection :" ++ name ++ Bytes.ofText " is not found")) true := by
  refine Ends.catching ⟨{ s.looked name with failed := true, resp := _ }, ?_, rfl, rfl, rfl⟩ _
  rw [h, Action.ofExcept_ok, Action.pure_bind', Action.run_bind_of_ret (run_lookup name s),
    decide_eq_false hfinds]
  exact run_complain (s := s.looked name) hs.1 _

/-- A name that is none is complained about. -/
theorem throws_of_unnamed {k : Bytes → Service Unit} {exn : Exn} (hs : s.Blank)
    (h : req.stringAt (Bytes.ofText "collection_name") = .error exn) :
    ∃ what, exn = .exception what ∧
      Throws (Action.ofExcept (req.stringAt (Bytes.ofText "collection_name")) >>= k) s s.engine
        what := by
  obtain ⟨j, he⟩ := Json.stringAt_eq_error h
  obtain ⟨what, rfl⟩ : ∃ what, exn = .exception what := by
    rcases he with rfl | rfl
    · exact ⟨_, rfl⟩
    · exact ⟨_, rfl⟩
  refine ⟨what, rfl, s, ?_, rfl, hs.1⟩
  rw [h]
  rfl

theorem ends_of_refused {text : Bytes} (hs : s.Blank) (h : s.opening req args = .refused text) :
    Ends (onCollection req fun name => useOn name args (use name)) s s.engine (complaint text)
      true := by
  rw [Server.opening] at h
  rcases hname : req.stringAt (Bytes.ofText "collection_name") with exn | name
  · obtain ⟨what, rfl, hthrows⟩ := throws_of_unnamed hs hname
    rw [hname] at h
    obtain rfl := Opening.refused.inj h
    exact hthrows.catching
  simp only [hname] at h
  by_cases hfinds : s.Finds name
  · rw [if_pos hfinds] at h
    rcases hargs : args with (what | u) | a
    · rw [hargs] at h
      obtain rfl := Opening.refused.inj h
      have hthrows : Throws (useOn name (.error (.exception what)) (use name))
          (s.looked name) s.engine what := ⟨_, rfl, rfl, hs.1⟩
      obtain ⟨s', hrun, hs'⟩ := hthrows.catching
      exact ⟨s', (run_onCollection hname hfinds).trans hrun, hs'⟩
    · rw [hargs] at h
      cases h
    · rw [hargs] at h
      simp only at h
      split_ifs at h
  · rw [if_neg hfinds] at h
    obtain rfl := Opening.refused.inj h
    exact ends_of_not_finds hs hname hfinds

theorem crashes_of_opening (h : s.opening req args = .undefined) :
    Crashes (onCollection req fun name => useOn name args (use name)) s := by
  rw [Server.opening] at h
  rcases hname : req.stringAt (Bytes.ofText "collection_name") with exn | name
  · obtain ⟨k, rfl | rfl⟩ := Json.stringAt_eq_error hname
    · rw [hname] at h
      cases h
    · rw [hname] at h
      cases h
  simp only [hname] at h
  by_cases hfinds : s.Finds name
  case neg => rw [if_neg hfinds] at h; cases h
  rw [if_pos hfinds] at h
  have hcrashes : Crashes (useOn name args (use name)) (s.looked name) := by
    rcases hargs : args with (what | u) | a
    · rw [hargs] at h
      cases h
    · exact ⟨u, _, rfl⟩
    · rw [hargs] at h
      simp only at h
      split_ifs at h with hdangles
      rcases run_collection hfinds with ⟨hnot, -⟩ | ⟨-, u, hrun⟩
      · exact absurd hdangles hnot
      · refine ⟨u, s.looked name, ?_⟩
        rw [useOn, Action.ofExcept_ok, Action.pure_bind', Action.run_bind_of_raise hrun]
  obtain ⟨u, s', hrun⟩ := hcrashes.catching (Bytes.ofText "Exception: ")
  exact ⟨u, s', (run_onCollection hname hfinds).trans hrun⟩

/-- A handler that begins so crashes there. -/
theorem crashes_of_eq {x : Service Unit}
    (hx : x = onCollection req fun name => useOn name args (use name))
    (h : s.opening req args = .undefined) : Crashes x s :=
  hx ▸ crashes_of_opening h

/-- **Where the handler goes on.** -/
theorem run_of_onto {a : α} (h : s.opening req args = .onto name a) :
    (onCollection req fun name => useOn name args (use name)).run s =
      (catching (Bytes.ofText "Exception: ") (use name a ⟨name⟩)).run (s.looked name) := by
  obtain ⟨hname, hfinds, rfl, hdangles⟩ := Server.opening_eq_onto_iff.mp h
  rw [run_onCollection hname hfinds, catching, catching, Action.run_tryCatch, Action.run_tryCatch]
  rcases run_collection hfinds with ⟨-, hrun⟩ | ⟨hdangles', -⟩
  · rw [useOn, Action.ofExcept_ok, Action.pure_bind', Action.run_bind_of_ret hrun]
  · exact absurd hdangles' hdangles

variable {a : α} {e : StorageEngine}

theorem Ends.of_onto {resp : Json} {failed : Bool} (h : s.opening req args = .onto name a)
    (hends : Ends (use name a ⟨name⟩) (s.looked name) e resp failed) :
    Ends (onCollection req fun name => useOn name args (use name)) s e resp failed := by
  obtain ⟨s', hrun, hs'⟩ := hends.catching (Bytes.ofText "Exception: ")
  exact ⟨s', (run_of_onto h).trans hrun, hs'⟩

theorem Throws.of_onto {what : Bytes} (h : s.opening req args = .onto name a)
    (hthrows : Throws (use name a ⟨name⟩) (s.looked name) e what) :
    Ends (onCollection req fun name => useOn name args (use name)) s e
      (complaint (Bytes.ofText "Exception: " ++ what)) true := by
  obtain ⟨s', hrun, hs'⟩ := hthrows.catching
  exact ⟨s', (run_of_onto h).trans hrun, hs'⟩

theorem Crashes.of_onto (h : s.opening req args = .onto name a)
    (hcrashes : Crashes (use name a ⟨name⟩) (s.looked name)) :
    Crashes (onCollection req fun name => useOn name args (use name)) s := by
  obtain ⟨u, s', hrun⟩ := hcrashes.catching (Bytes.ofText "Exception: ")
  exact ⟨u, s', (run_of_onto h).trans hrun⟩

end UseOn

/-! ### Calls on a collection -/

section Calls

variable {β : Type} {s : Serving} {req : Json} {args : Except Exn α} {name : Bytes} {a : α}
  {call : α → Collection → Engine β} {result : β → Status} {w : World}
  {done : Bytes → α → β → List (Bytes × Bytes)} {failure : Bytes → Bytes}

/-- The handlers that make a call on a collection and answer with what it reports. -/
def callOn (req : Json) (args : Except Exn α) (call : α → Collection → Engine β)
    (result : β → Status) (done : Bytes → α → β → List (Bytes × Bytes)) (failure : Bytes → Bytes) :
    Service Unit :=
  onCollection req fun name => useOn name args fun a c => do
    let b ← engine (call a c)
    conclude (result b) (done name a b) (failure name)

/-- **A call that returns**: its status is answered. -/
theorem ends_callOn {b : β} (hs : s.Blank) (h : s.opening req args = .onto name a)
    (hrun : (call a ⟨name⟩).run (.refusing s.engine (s.looked name).refusals) = (.ret b, w)) :
    Ends (callOn req args call result done failure) s w.engine
      (concluded (result b) (done name a b) (failure name)) (!(result b).ok) :=
  Ends.of_onto h (ends_of_ret (s := s.looked name) hs hrun rfl)

/-- **A call that throws**: the exception is answered. -/
theorem ends_callOn_of_exception {what : Bytes} (hs : s.Blank)
    (h : s.opening req args = .onto name a)
    (hrun : (call a ⟨name⟩).run (.refusing s.engine (s.looked name).refusals) =
      (.raise (.exception what), w)) :
    Ends (callOn req args call result done failure) s w.engine
      (complaint (Bytes.ofText "Exception: " ++ what)) true :=
  Throws.of_onto h (throws_of_raise (s := s.looked name) hs hrun)

theorem crashes_callOn {u : Undefined} (h : s.opening req args = .onto name a)
    (hrun : (call a ⟨name⟩).run (.refusing s.engine (s.looked name).refusals) =
      (.raise (.undefined u), w)) : Crashes (callOn req args call result done failure) s :=
  Crashes.of_onto h (crashes_of_raise (s := s.looked name) hrun)

end Calls

/-! ### The handlers -/

section Handlers

variable (text : JsonText) (codec : Codec) (d : Delivery) (req : Json)

/-- What `handle_create_document` reads. -/
def createArgs : Except Exn (Bytes × Json) := do
  let docId ← req.stringIfAny (Bytes.ofText "document_id")
  let data ← req.index (Bytes.ofText "content")
  return (docId, data)

theorem handle_create_document_eq : handle_create_document codec d req =
    callOn req (createArgs req) (fun a c => c.createDocument codec d.entropy ⟨a.1, a.2⟩) Prod.fst
      (fun name _ b => [(Bytes.ofText "docId", b.2.id_),
        (message, Bytes.ofText "Document added in collection " ++ name)])
      fun name => Bytes.ofText "error while adding document in collection " ++ name := by
  rw [handle_create_document, callOn]
  congr 1
  funext name
  rw [useOn, createArgs]
  rcases req.stringIfAny (Bytes.ofText "document_id") with exn | docId
  · rfl
  rcases req.index (Bytes.ofText "content") with exn | data <;> rfl

theorem handle_create_index_eq : handle_create_index codec req =
    callOn req (req.stringAt (Bytes.ofText "field")) (fun field c => c.createIndex codec none field) id
      (fun _ field _ => [(message, Bytes.ofText "Index created on field name: " ++ field)])
      fun name => Bytes.ofText "error while creating index in collection " ++ name := rfl

/-- **Deleting an index is creating it**, but for the texts of the reply. -/
theorem handle_delete_index_eq : handle_delete_index codec req =
    callOn req (req.stringAt (Bytes.ofText "field")) (fun field c => c.createIndex codec none field) id
      (fun _ field _ => [(message, Bytes.ofText "Index deleted on field name: " ++ field)])
      fun name => Bytes.ofText "error while deleting index in collection " ++ name := rfl

theorem handle_delete_document_eq (h : req.contains (Bytes.ofText "document_id") = true) :
    handle_delete_document codec req =
      callOn req (req.stringAt (Bytes.ofText "document_id"))
        (fun docId c => c.deleteDocument codec docId) id
        (fun name docId _ => [(Bytes.ofText "docId", docId),
          (message, Bytes.ofText "Document deleted from collection " ++ name)])
        fun name => Bytes.ofText "error while deleting document in collection " ++ name := by
  rw [handle_delete_document]
  simp only [h, if_true]
  rfl

variable {codec d req} {s : Serving} {name : Bytes}

/-- A method of the database that returns, and what it reports. -/
theorem run_reported {method : Objects → Engine (Status × Objects)} {result : Status}
    {o : Objects} {w : World} (hs : s.Blank)
    (hrun : (method s.objects).run (.refusing s.engine s.refusals) = (.ret (result, o), w))
    {k : Status → Service Unit} :
    (do let result ← database method; report result.ok; k result : Service Unit).run s =
      (k result).run { s.after w with objects := o, failed := !result.ok } := by
  have hdatabase := run_database method s
  rw [hrun] at hdatabase
  rw [Action.run_bind_of_ret hdatabase]
  have hfailed : ({ s.after w with objects := o, failed := !result.ok } : Serving) =
      { s.after w with objects := o, failed := s.failed || !result.ok } := by
    rw [hs.2, Bool.false_or]
  rw [hfailed]
  rfl

/-- What `handle_create_collection` answers. -/
def created (name : Bytes) (result : Status) : Json :=
  concluded result
    [(message, name ++ Bytes.ofText " collection created successfully in AnuDB.")]
    (Bytes.ofText "error while creating collection")

/-- **A collection is created**, or the status says why not. -/
theorem ends_create_collection {result : Status} {o : Objects} {w : World} (hs : s.Blank)
    (hname : req.stringAt (Bytes.ofText "collection_name") = .ok name)
    (hrun : (s.objects.createCollection name).run (.refusing s.engine s.refusals) =
      (.ret (result, o), w)) :
    Ends (handle_create_collection req) s w.engine (created name result) (!result.ok) := by
  refine Ends.catching ?_ _
  rw [hname, Action.ofExcept_ok, Action.pure_bind', Ends, run_reported hs hrun, created, concluded]
  split_ifs with hok
  · -- the object has just been made, so asking for it calls nothing
    have hfind : o.find name = some ((s.objects.without name).next name) := by
      rcases Objects.returns_createCollection.of_run hrun with ⟨-, ho⟩ | ⟨hfalse, -⟩
      · rw [show o = _ from ho, Objects.find_replaced, if_pos rfl]
        rfl
      · exact absurd (hok.symm.trans hfalse) (by simp)
    have hget := run_database (fun o => o.getCollection name)
      { s.after w with objects := o, failed := !result.ok }
    rw [Objects.getCollection_of_find hfind] at hget
    rw [Action.run_bind_of_ret hget]
    exact ⟨_, run_answer (List.cons_ne_nil _ _) hs.1, rfl, rfl, rfl⟩
  · exact ⟨_, run_answer (List.cons_ne_nil _ _) hs.1, rfl, rfl, rfl⟩

/-- What `handle_delete_collection` answers. -/
def deleted (name : Bytes) (result : Status) : Json :=
  concluded result
    [(message, name ++ Bytes.ofText " collection deleted successfully in AnuDB.")]
    (Bytes.ofText "error while deleting collection")

/-- **A collection is deleted**, or the status says why not. -/
theorem ends_delete_collection {result : Status} {o : Objects} {w : World} (hs : s.Blank)
    (hname : req.stringAt (Bytes.ofText "collection_name") = .ok name)
    (hrun : (s.objects.dropCollection name).run (.refusing s.engine s.refusals) =
      (.ret (result, o), w)) :
    Ends (handle_delete_collection req) s w.engine (deleted name result) (!result.ok) := by
  refine Ends.catching ?_ _
  rw [hname, Action.ofExcept_ok, Action.pure_bind', Ends, run_reported hs hrun, deleted, concluded]
  split_ifs
  · exact ⟨_, run_answer (List.cons_ne_nil _ _) hs.1, rfl, rfl, rfl⟩
  · exact ⟨_, run_answer (List.cons_ne_nil _ _) hs.1, rfl, rfl, rfl⟩

theorem crashes_delete_collection {u : Undefined} {w : World}
    (hname : req.stringAt (Bytes.ofText "collection_name") = .ok name)
    (hrun : (s.objects.dropCollection name).run (.refusing s.engine s.refusals) =
      (.raise (.undefined u), w)) : Crashes (handle_delete_collection req) s := by
  refine Crashes.catching ⟨u, s.after w, ?_⟩ _
  have hdatabase := run_database (fun o => o.dropCollection name) s
  rw [hrun] at hdatabase
  rw [hname, Action.ofExcept_ok, Action.pure_bind', Action.run_bind_of_raise hdatabase]

end Handlers

end Service

/-! ### Requests -/

namespace Server

variable {text : JsonText} {codec : Codec} {s : Server} {d : Delivery} {command : Command}
  {req : Json} {e : StorageEngine} {resp : Json} {failed : Bool}

/-- **A request is answered**: what the engine is then, and the reply that is dumped, and whether
something went wrong. -/
def Answers (text : JsonText) (codec : Codec) (s : Server) (d : Delivery) (e : StorageEngine)
    (resp : Json) (failed : Bool) : Prop :=
  ∃ s', s.serve text codec d = (.ofExcept ((text.dump resp).mapError Exn.exception), s') ∧
    s'.engine = e ∧ s'.resp = resp ∧ s'.failed = failed

/-- Handling a request is undefined behaviour. -/
def Crashes (text : JsonText) (codec : Codec) (s : Server) (d : Delivery) : Prop :=
  ∃ u, (s.serve text codec d).1 = .raise (.undefined u)

theorem blank_begun (text : JsonText) (s : Server) (d : Delivery) : (s.begun text d).Blank :=
  ⟨rfl, rfl⟩

theorem answers_of_ends (hasked : text.asked d.payload = .ok (command, req))
    (h : Service.Ends (command.handle text codec d req (text.topic d.payload)) (s.begun text d) e
      resp failed) : s.Answers text codec d e resp failed := by
  obtain ⟨s', hrun, he, hresp, hfailed⟩ := h.catching (Bytes.ofText "Exception :")
  refine ⟨s', ?_, he, hresp, hfailed⟩
  rw [serve_of_asked hasked, Service.reply, Action.run_bind_of_ret hrun,
    Action.run_bind_of_ret (Action.run_get _), Action.run_ofExcept, hresp]

theorem crashes_of_crashes (hasked : text.asked d.payload = .ok (command, req))
    (h : Service.Crashes (command.handle text codec d req (text.topic d.payload))
      (s.begun text d)) : s.Crashes text codec d := by
  obtain ⟨u, s', hrun⟩ := h.catching (Bytes.ofText "Exception :")
  refine ⟨u, ?_⟩
  rw [serve_of_asked hasked, Service.reply, Action.run_bind_of_raise hrun]

/-- What asks for nothing is complained about. -/
theorem answers_of_not_asked {complaint : Bytes} (hasked : text.asked d.payload = .error complaint) :
    s.Answers text codec d s.engine (Service.complaint complaint) true := by
  refine ⟨{ s.begun text d with failed := true, resp := Service.complaint complaint }, ?_, rfl,
    rfl, rfl⟩
  have hreturns : (pure () : Service Unit).run
      { s.begun text d with failed := true, resp := Service.complaint complaint } = (.ret (), _) := rfl
  rw [serve_of_not_asked hasked, Service.reply, Action.run_bind_of_ret hreturns,
    Action.run_bind_of_ret (Action.run_get _), Action.run_ofExcept]

theorem Answers.not_crashes (h : s.Answers text codec d e resp failed) : ¬s.Crashes text codec d := by
  rintro ⟨u, hu⟩
  obtain ⟨s', hserve, -⟩ := h
  rw [hserve] at hu
  rcases hdump : text.dump resp with what | reply
  · rw [hdump] at hu
    cases hu
  · rw [hdump] at hu
    cases hu

/-- The engine after a step. -/
theorem Answers.engine_eq (h : s.Answers text codec d e resp failed) {s' : Server}
    (hstep : s.Step text codec d s') : s'.engine = e := by
  obtain ⟨s₁, hserve, he, -⟩ := h
  rw [hstep.2, hserve]
  exact he

end Server

end AnuDB
