import AnuDB.Handlers
import AnuDB.Interference

/-!
# What a handler leaves alone

Most of what a handler does is to look its collection up, to put texts into the reply, and to catch
what is thrown. None of that is seen by someone who looks at the families of the engine, or at what
has been published, and to whom replies, pointers and refusals are all one
(`AnuDB.Service.Overlooks`). All such a person can see is what the calls to the engine do, and what
is sent. So what a command leaves alone is settled by the calls it makes
(`AnuDB.Service.frames_handle`): those of commands that only read or work on an index touch the
families of indexes, and those of the others the family of their collection as well
(`AnuDB.Command.Calls`).
-/

namespace AnuDB

open Effect

/-! ### What the commands call -/

/-- **The calls a command makes** on the collection of a name. -/
def Command.Calls (name : Bytes) : Command → Call → Prop
  | create_collection | delete_collection | create_document | delete_document => Call.Within name
  | _ => Call.OnIndexes name

theorem Command.Calls.within {command : Command} {name : Bytes} {x : Call}
    (h : command.Calls name x) : x.Within name := by
  cases command with
  | create_collection | delete_collection | create_document | delete_document => exact h
  | _ => exact Call.OnIndexes.within h

theorem Call.OnIndexes.calls {x : Call} {name : Bytes} (h : x.OnIndexes name) (command : Command) :
    command.Calls name x := by
  cases command with
  | create_collection | delete_collection | create_document | delete_document => exact h.within
  | _ => exact h

theorem Collection.reads_readDocument {codec : Codec} (c : Collection) (id : Bytes) :
    (c.readDocument codec id).Uses Call.Reads := by
  refine Prog.Uses.bind (Prog.uses_perform.mpr (Call.reads_get c.name_ id)) fun r => ?_
  cases r with
  | error status => trivial
  | ok serialized =>
    simp only
    cases Document.from_msgpack codec serialized with
    | error exn => exact Prog.Uses.bind (Prog.uses_ofExcept _) fun status => Prog.uses_pure _
    | ok doc => trivial

namespace Objects

variable {o : Objects} {name : Bytes}

theorem uses_getCollection : (o.getCollection name).Uses Call.Reads := by
  rw [getCollection]
  rcases o.find name with _ | p
  · refine Prog.Uses.bind (Prog.uses_perform.mpr fun _ h => h) fun found => ?_
    split_ifs <;> trivial
  · trivial

theorem uses_createCollection : (o.createCollection name).Uses (Call.Within name) := by
  refine Prog.Uses.bind (Prog.Uses.bind (Prog.uses_perform.mpr ?_) fun r =>
    Prog.uses_ofExcept r) fun status => ?_
  · rintro n rfl
    exact Or.inl rfl
  split_ifs
  · have herase : (o.erase name).Uses (Call.OnIndexes name) := by
      have h := @Database.uses_erase o.forget name
      rw [← forget_erase] at h
      exact Prog.uses_map.mp h
    exact Prog.Uses.bind (herase.mono fun _ h => h.within) fun _ => trivial
  · trivial

theorem uses_dropCollection : (o.dropCollection name).Uses (Call.Within name) := by
  have h := @Database.uses_dropCollection o.forget name
  rw [← forget_dropCollection] at h
  exact Prog.uses_map.mp h

end Objects

/-! ### What is not looked at -/

namespace Service

variable {α : Type} {text : JsonText} {codec : Codec} {d : Delivery} {req : Json} {topic : Bytes}

/-- **What handlers do by themselves is not seen**: the reply, the pointers and objects, what is
left of the refusals, and the files. -/
structure Overlooks (same : Setoid Serving) : Prop where
  /-- The reply is not looked at. -/
  reply : ∀ s resp failed, same.r s { s with resp, failed }
  /-- Neither are objects and pointers. -/
  pointers : ∀ s objects refusals collMap_, same.r s { s with objects, refusals, collMap_ }
  /-- Nor are files. -/
  files : ∀ s files, same.r s { s with files }

/-- The collection that is used has the name it is asked for by. -/
theorem name_of_collection {name : Bytes} {c : Collection} {s s' : Serving}
    (h : (collection name).run s = (.ret c, s')) : c.name_ = name := by
  rw [collection, Action.run_bind_of_ret (Action.run_get _)] at h
  split at h
  · cases h
  · next p _ =>
    split_ifs at h with hfind
    · obtain ⟨hc, -⟩ := Prod.mk.inj h
      rw [← Outcome.ret.inj hc, Objects.name_of_find hfind]
    · cases h

section Overlooks

variable {same : Setoid Serving} (h : Overlooks same)

include h

theorem Overlooks.report (ok : Bool) : (report ok).Frames same := fun s => h.reply s s.resp _

theorem Overlooks.set (field : Bytes) (value : Json) : (set field value).Frames same := by
  intro s
  rw [Action.run, Service.set]
  rcases s.resp.setMember field value with e | resp
  · exact same.iseqv.refl s
  · exact h.reply s resp s.failed

theorem Overlooks.answer (fields : List (Bytes × Bytes)) : (answer fields).Frames same := by
  induction fields with
  | nil => exact Action.frames_pure ()
  | cons x fields ih => exact (h.set x.1 (.string x.2)).bind fun _ => ih

theorem Overlooks.complain (fields : List (Bytes × Bytes)) :
    (do Service.report false; Service.answer fields).Frames same :=
  (h.report false).bind fun _ => h.answer fields

theorem Overlooks.conclude (result : Status) (done : List (Bytes × Bytes)) (failure : Bytes) :
    (conclude result done failure).Frames same := by
  refine (h.report result.ok).bind fun _ => ?_
  split_ifs
  · exact h.answer _
  · exact h.answer _

/-- What a `catch` does is not seen. -/
theorem Overlooks.caught (heading : Bytes) (x : Service Unit) (s : Serving) :
    same.r (x.run s).2 ((Service.catching heading x).run s).2 := by
  refine Action.frames_caught (fun exn => ?_) s
  cases exn with
  | exception what => exact h.complain _
  | undefined u => exact Action.frames_raise _

theorem Overlooks.catching {heading : Bytes} {x : Service Unit} (hx : x.Frames same) :
    (catching heading x).Frames same :=
  fun s => same.iseqv.trans (hx s) (h.caught heading x s)

theorem Overlooks.lookup (name : Bytes) : (lookup name).Frames same := by
  intro s
  rw [run_lookup]
  exact h.pointers s _ _ _

omit h in
theorem frames_collection (name : Bytes) : (collection name).Frames same := by
  refine Action.frames_get.bind fun s => ?_
  split
  · exact Action.frames_raise _
  · split_ifs
    · exact Action.frames_pure _
    · exact Action.frames_raise _

theorem Overlooks.database {method : Objects → Engine (α × Objects)}
    (hmethod : ∀ o, (engine (method o)).Frames same) : (database method).Frames same := by
  refine Action.frames_get.bind fun s => (hmethod s.objects).bind fun x => ?_
  exact (Action.frames_modify fun s => h.pointers s x.2 _ _).bind fun _ => Action.frames_pure x.1

theorem Overlooks.onCollection {body : Bytes → Service Unit}
    (hbody : ∀ name, req.stringAt (Bytes.ofText "collection_name") = .ok name →
      (body name).Frames same) : (onCollection req body).Frames same := by
  refine h.catching ?_
  rcases hname : req.stringAt (Bytes.ofText "collection_name") with exn | name
  · exact Action.frames_raise exn
  · refine (h.lookup name).bind fun found => ?_
    cases found with
    | true => exact hbody name hname
    | false => exact h.complain _

omit h in
/-- A call on a collection, and what is answered. -/
theorem frames_call {name : Bytes} {p : Collection → Engine α} {k : α → Service Unit}
    (hp : ∀ c, c.name_ = name → (engine (p c)).Frames same) (hk : ∀ a, (k a).Frames same) :
    (do let c ← Service.collection name; let a ← engine (p c); k a).Frames same := by
  intro s
  have hcollection : same.r s ((Service.collection name).run s).2 := frames_collection name s
  rcases hrun : (Service.collection name).run s with ⟨c | e | _, s'⟩ <;>
    rw [hrun] at hcollection
  · rw [Action.run_bind_of_ret hrun]
    refine same.iseqv.trans hcollection (((hp c ?_).bind hk) s')
    exact name_of_collection hrun
  · rw [Action.run_bind_of_raise hrun]
    exact hcollection
  · rw [Action.run_bind, hrun]
    exact hcollection

end Overlooks

section Handle

variable {same : Setoid Serving}

/-- Sending documents one after the other. -/
theorem frames_sendEntries (hsend : ∀ topic payload, (send_response topic payload).Frames same)
    (entries : List (Bytes × Bytes)) : (sendEntries text codec topic entries).Frames same := by
  induction entries with
  | nil => exact Action.frames_pure ()
  | cons x entries ih =>
    refine (Action.frames_ofExcept _).bind fun doc => (Action.frames_ofExcept _).bind fun payload => ?_
    exact (hsend topic payload).bind fun _ => ih

theorem frames_sendDocuments (h : Overlooks same)
    (hsend : ∀ topic payload, (send_response topic payload).Frames same) {c : Collection}
    (hread : ∀ docId, (engine (c.readDocument codec docId)).Frames same) (docIds : List Bytes) :
    (sendDocuments text codec topic c docIds).Frames same := by
  induction docIds with
  | nil => exact Action.frames_pure ()
  | cons docId docIds ih =>
    refine Action.Frames.bind ((hread docId).bind fun found => ?_) fun _ => ih
    cases found with
    | error result => exact h.report false
    | ok doc => exact (Action.frames_ofExcept _).bind fun payload => hsend topic payload

/-- **What a command leaves alone** is what its calls leave alone, where nothing else is looked at
but what is sent. -/
theorem frames_handle (h : Overlooks same) (command : Command)
    (hsend : command = .read_document ∨ command = .find_documents →
      ∀ topic payload, (send_response topic payload).Frames same)
    (hlists : (engine Engine.getCollectionNames).Frames same)
    (hcalls : ∀ name, req.stringAt (Bytes.ofText "collection_name") = .ok name →
      ∀ {α : Type} (p : Engine α), p.Uses (command.Calls name) → (engine p).Frames same) :
    (command.handle text codec d req topic).Frames same := by
  -- calls on the indexes of the collection, and calls that only read
  have hindexes {α : Type} {name : Bytes}
      (hname : req.stringAt (Bytes.ofText "collection_name") = .ok name) {c : Collection}
      (hc : c.name_ = name) {p : Engine α} (hp : p.Uses (Call.OnIndexes c.name_)) :
      (engine p).Frames same :=
    hcalls name hname p (hp.mono fun x hx => (hc ▸ hx : x.OnIndexes name).calls command)
  have hread {name : Bytes} (hname : req.stringAt (Bytes.ofText "collection_name") = .ok name)
      {c : Collection} (hc : c.name_ = name) (docId : Bytes) :
      (engine (c.readDocument codec docId)).Frames same :=
    hindexes hname hc ((c.reads_readDocument docId).mono fun _ h => h.onIndexes)
  cases command with
  | create_collection =>
    refine h.catching ?_
    rcases hname : req.stringAt (Bytes.ofText "collection_name") with exn | name
    · exact Action.frames_raise exn
    refine (h.database fun o => hcalls name hname _ Objects.uses_createCollection).bind fun result => ?_
    refine (h.report _).bind fun _ => ?_
    split_ifs
    · refine (h.database fun o => hcalls name hname _ ?_).bind fun pointer => ?_
      · exact Objects.uses_getCollection.mono fun x hx => hx.onIndexes.within
      · exact (Action.frames_modify fun s => h.pointers s _ _ _).bind fun _ => h.answer _
    · exact h.answer _
  | delete_collection =>
    refine h.catching ?_
    rcases hname : req.stringAt (Bytes.ofText "collection_name") with exn | name
    · exact Action.frames_raise exn
    refine (h.database fun o => hcalls name hname _ Objects.uses_dropCollection).bind fun result => ?_
    refine (h.report _).bind fun _ => ?_
    split_ifs
    · exact (Action.frames_modify fun s => h.pointers s _ _ _).bind fun _ => h.answer _
    · exact h.answer _
  | get_collections => exact hlists.bind fun names => h.set _ _
  | create_document =>
    refine h.onCollection fun name hname => (Action.frames_ofExcept _).bind fun docId => ?_
    refine (Action.frames_ofExcept _).bind fun data => frames_call ?_ fun x => h.conclude _ _ _
    rintro c rfl
    exact hcalls _ hname _ (Collection.uses_createDocument _ _)
  | delete_document =>
    refine h.onCollection fun name hname => ?_
    split_ifs
    · refine (Action.frames_ofExcept _).bind fun docId => frames_call ?_ fun x => h.conclude _ _ _
      rintro c rfl
      exact hcalls _ hname _ (Collection.uses_deleteDocument docId)
    · exact Action.frames_pure ()
  | read_document =>
    refine Action.Frames.bind (h.onCollection fun name hname => ?_) fun _ => h.set _ _
    split_ifs
    · refine (Action.frames_ofExcept _).bind fun docId =>
        frames_call (fun c hc => hread hname hc docId) fun found => ?_
      cases found with
      | error result => exact h.complain _
      | ok doc => exact Action.frames_modify fun s => h.reply s _ _
    · refine (Action.frames_ofExcept _).bind fun limit => frames_call (fun c hc => ?_) fun entries => ?_
      · exact hindexes hname hc (Prog.uses_perform.mpr (Call.reads_cursor c.name_ none).onIndexes)
      · exact frames_sendEntries (hsend (Or.inl rfl)) _
  | create_index | delete_index =>
    refine h.onCollection fun name hname => (Action.frames_ofExcept _).bind fun field => ?_
    exact frames_call (fun c hc => hindexes hname hc (Collection.uses_createIndex none field))
      fun x => h.conclude _ _ _
  | get_indexes =>
    refine h.onCollection fun name hname => frames_call (fun c hc => ?_) fun indexes => h.answer _
    exact hindexes hname hc (Prog.uses_perform.mpr (Call.reads_getIndexNames c.name_).onIndexes)
  | find_documents =>
    refine Action.Frames.bind (h.onCollection fun name hname => ?_) fun _ => h.set _ _
    refine (Action.frames_ofExcept _).bind fun _ => (Action.frames_ofExcept _).bind fun query => ?_
    intro s
    have hcollection : same.r s ((collection name).run s).2 := frames_collection name s
    rcases hrun : (collection name).run s with ⟨c | e | _, s'⟩ <;> rw [hrun] at hcollection
    · rw [Action.run_bind_of_ret hrun]
      refine same.iseqv.trans hcollection (Action.Frames.bind Action.frames_get (fun s => ?_) s')
      refine (Action.frames_ofExcept _).bind fun docIds => (h.report _).bind fun _ => ?_
      exact frames_sendDocuments h (hsend (Or.inr rfl)) (hread hname (name_of_collection hrun)) docIds
    · rw [Action.run_bind_of_raise hrun]
      exact hcollection
    · rw [Action.run_bind, hrun]
      exact hcollection
  | export_collection =>
    refine h.onCollection fun name hname => (Action.frames_ofExcept _).bind fun destDir => ?_
    refine (frames_collection name).bind fun c => ?_
    refine Action.Frames.bind ?_ fun _ => h.conclude _ _ _
    refine Action.frames_get.bind fun s => ?_
    rcases s.engine.exportAllToJson text codec d.os s.files c.name_ destDir with ⟨result, files⟩
    refine Action.Frames.bind (Action.frames_modify fun s => h.files s files) fun _ => ?_
    rcases result with exn | result
    · exact Action.frames_raise _
    · exact (h.report _).bind fun _ => Action.frames_pure _

variable (text) in
/-- What comes after the handler is not seen. -/
theorem frames_reply (x : Service Unit) (s : Serving) :
    same.r (x.run s).2 ((reply text x).run s).2 :=
  Action.frames_after (fun _ => Action.frames_get.bind fun s =>
    Action.frames_ofExcept ((text.dump s.resp).mapError Exn.exception)) s

end Handle

end Service

end AnuDB
