import AnuDB.Clients
import AnuDB.Export
import AnuDB.UpdateRoots

/-!
# Are updates lost?

Two updates of one document both read it, and both write all of it. If the one that writes last has
read before the other one wrote, then what that one did is lost. `updateDocument` holds a mutex
from its first engine call to its last, and this is what it is for.

So let document calls be under way together on one collection, in any order of their engine calls
and with anything refused. Two calls on one document are updates, and have no roots in common
(`AnuDB.DocumentCall.Apart`). Then every field is as if the call that works on it had been alone,
and every other one is as it was (`AnuDB.DocumentCall.field_of_together`): nothing that was
reported as done is lost, and nothing that was not is there.
-/

namespace AnuDB

open Effect

/-! ### The fields of the documents -/

/-- A field of a document, where there is one. -/
def DocumentMap.field (m : DocumentMap) (x : Bytes × Bytes) : Option (Option Json) :=
  (m x.1).map fun data => data.find? x.2

theorem Json.isObject_of_contains {data : Json} {name : Bytes} (h : data.contains name = true) :
    data.isObject = true := by
  obtain ⟨value, hvalue⟩ := Option.isSome_iff_exists.mp h
  exact isObject_of_find? hvalue

namespace DocumentCall

/-- **The fields a call works on**: those of its document, or the roots of the update. -/
def fields : DocumentCall → Set (Bytes × Bytes)
  | .create entropy doc => {x | x.1 = DocumentMap.target entropy doc.id_}
  | .update _ id ops _ => {x | x.1 = id ∧ x.2 ∈ ops.roots}
  | .delete id => {x | x.1 = id}

/-- **Two calls do not get into each other's way**: they have no document in common, or they are
updates and have no roots in common. -/
def Apart : DocumentCall → DocumentCall → Prop
  | .update _ id ops _, .update _ id' ops' _ => id = id' → ∀ name ∈ ops.roots, name ∉ ops'.roots
  | x, y => ∀ id ∈ x.ids, id ∉ y.ids

/-- **An update is of a document that is there**, and leaves `_id` alone. -/
def OfStored (m : DocumentMap) : DocumentCall → Prop
  | .update _ id ops _ => id ≠ [] ∧ idField ∉ ops.roots ∧
    ∃ data, m id = some data ∧ data.contains idField = true
  | _ => True

instance decidableApart : (x y : DocumentCall) → Decidable (x.Apart y)
  | .update _ id ops _, .update _ id' ops' _ =>
    inferInstanceAs (Decidable (id = id' → ∀ name ∈ ops.roots, name ∉ ops'.roots))
  | .update entropy id ops upsert, .create entropy' doc => inferInstanceAs (Decidable
    (∀ i ∈ ids (.update entropy id ops upsert), i ∉ ids (.create entropy' doc)))
  | .update entropy id ops upsert, .delete id' => inferInstanceAs (Decidable
    (∀ i ∈ ids (.update entropy id ops upsert), i ∉ ids (.delete id')))
  | .create entropy doc, y => inferInstanceAs (Decidable (∀ i ∈ ids (.create entropy doc), i ∉ y.ids))
  | .delete id, y => inferInstanceAs (Decidable (∀ i ∈ ids (.delete id), i ∉ y.ids))

theorem Apart.ids {x y : DocumentCall} (h : x.Apart y)
    (hboth : ¬(x.isUpdate = true ∧ y.isUpdate = true)) : ∀ id ∈ x.ids, id ∉ y.ids := by
  cases x with
  | update entropy id ops upsert =>
    cases y with
    | update entropy' id' ops' upsert' => exact absurd ⟨rfl, rfl⟩ hboth
    | _ => exact h
  | _ => cases y <;> exact h

/-- The document of a field is one of those the call is about. -/
theorem mem_ids_of_mem_fields {call : DocumentCall} {x : Bytes × Bytes} (h : x ∈ call.fields) :
    x.1 ∈ call.ids := by
  cases call with
  | create entropy doc => exact List.mem_singleton.mpr h
  | update entropy id ops upsert => exact List.mem_cons.mpr (Or.inl h.1)
  | delete id => exact List.mem_singleton.mpr h

/-- **Calls that do not get into each other's way have no field in common.** -/
theorem Apart.fields {x y : DocumentCall} (h : x.Apart y) : ∀ l ∈ x.fields, l ∉ y.fields := by
  intro l hx hy
  by_cases hboth : x.isUpdate = true ∧ y.isUpdate = true
  · cases x with
    | update entropy id ops upsert =>
      cases y with
      | update entropy' id' ops' upsert' => exact h (hx.1.symm.trans hy.1) _ hx.2 hy.2
      | _ => cases hboth.2
    | _ => cases hboth.1
  · exact h.ids hboth _ (mem_ids_of_mem_fields hx) (mem_ids_of_mem_fields hy)

end DocumentCall

/-! ### What a call does to the map, if it can -/

namespace DocumentMap

variable {m : DocumentMap}

/-- **What a call makes of the map**, unless the update throws. -/
def tried (m : DocumentMap) : DocumentCall → Option DocumentMap
  | .create entropy doc => some (m.assign (target entropy doc.id_) doc.data_)
  | .update entropy id ops upsert =>
    ((m.before id upsert).bind fun data => ((⟨id, data⟩ : Document).applyUpdate ops).toOption).map
      fun doc => m.assign (target entropy id) doc.data_
  | .delete id => some (Function.update m id none)

theorem attempt_tried (call : DocumentCall) :
    Local.attempt (fun m => tried m call) m = m.apply (.document call) := by
  cases call with
  | update entropy id ops upsert =>
    rw [Local.attempt, tried, apply]
    rcases (m.before id upsert).bind fun data => ((⟨id, data⟩ : Document).applyUpdate ops).toOption
      with _ | doc <;> rfl
  | _ => rfl

theorem field_update_of_ne {id : Bytes} {value : Option Json} {x : Bytes × Bytes} (h : x.1 ≠ id) :
    DocumentMap.field (Function.update m id value) x = m.field x := by
  rw [field, Function.update_of_ne h, field]

theorem field_update_self {id : Bytes} {value : Option Json} {x : Bytes × Bytes} (h : x.1 = id) :
    DocumentMap.field (Function.update m id value) x = value.map fun data => data.find? x.2 := by
  rw [field, h, Function.update_self]

/-- An update of a document that is there changes its data. -/
theorem tried_update {entropy : Entropy} {id : Bytes} {ops : Json} {upsert : Bool}
    (h : (DocumentCall.update entropy id ops upsert).OfStored m) :
    m.tried (.update entropy id ops upsert) = (m id).bind fun data =>
      (ops.updated data).map fun data => Function.update m id (some data) := by
  obtain ⟨hid, hfield, data, hdata, hcontains⟩ := h
  have hbefore : m.before id upsert = some data := by rw [before, hdata]
  rw [tried, hbefore, hdata, target, if_neg hid, Option.bind_some, Option.bind_some,
    Document.applyUpdate_toOption, Option.map_map]
  refine Option.map_congr fun data' hdata' => ?_
  obtain ⟨value, hvalue⟩ := Option.isSome_iff_exists.mp hcontains
  have hobject := Json.isObject_of_contains hcontains
  -- the document has an `_id` as before, and is stored as it is
  have hsame : data'.find? idField = some value :=
    (ops.keepsTo_updated.frame hobject hdata' idField hfield).trans hvalue
  have hidentified : identified id data' = data' := by
    cases data' with
    | object members =>
      rw [identified, if_pos]
      rw [Json.find?] at hsame
      rw [hsame]
      rfl
    | _ => cases hsame
  rw [Function.comp_apply, assign, hidentified]

/-- What a call that can be tried leaves: the map, but for one document. -/
theorem exists_update_of_tried {x : DocumentCall} {m' : DocumentMap} (hx : x.OfStored m)
    (h : m.tried x = some m') : ∃ id ∈ x.ids, ∃ value, m' = Function.update m id value ∧
      (x.isUpdate = true → ∃ data data', m id = some data ∧ value = some data' ∧
        data'.find? idField = data.find? idField) := by
  cases x with
  | create entropy doc =>
    exact ⟨_, List.mem_singleton.mpr rfl, _, (Option.some.inj h).symm, fun h => by cases h⟩
  | delete id =>
    exact ⟨id, List.mem_singleton.mpr rfl, none, (Option.some.inj h).symm, fun h => by cases h⟩
  | update entropy id ops upsert =>
    rw [tried_update hx] at h
    obtain ⟨-, hfield, data, hdata, hcontains⟩ := hx
    rw [hdata, Option.bind_some] at h
    obtain ⟨data', hdata', rfl⟩ := Option.map_eq_some_iff.mp h
    have hobject := Json.isObject_of_contains hcontains
    exact ⟨id, List.mem_cons_self, some data', rfl, fun _ => ⟨data, data', hdata, rfl,
      ops.keepsTo_updated.frame hobject hdata' idField hfield⟩⟩

/-- **A document that is there stays there**, whatever the other calls do. -/
theorem ofStored_of_tried {x y : DocumentCall} {m' : DocumentMap} (hx : x.OfStored m)
    (hy : y.OfStored m) (hapart : y.isUpdate = true → x.isUpdate = true ∨ ∀ id ∈ x.ids, id ∉ y.ids)
    (h : m.tried x = some m') : y.OfStored m' := by
  cases y with
  | update entropy id ops upsert =>
    obtain ⟨id', hid', value, rfl, hupdate⟩ := exists_update_of_tried hx h
    obtain ⟨hid, hfield, data, hdata, hcontains⟩ := hy
    refine ⟨hid, hfield, ?_⟩
    by_cases hsame : id = id'
    · subst hsame
      obtain hupdated | hother := hapart rfl
      · obtain ⟨data₀, data', hdata₀, rfl, hfind⟩ := hupdate hupdated
        obtain rfl := Option.some.inj (hdata.symm.trans hdata₀)
        refine ⟨data', Function.update_self .., ?_⟩
        rw [Json.contains, hfind]
        exact hcontains
      · exact absurd List.mem_cons_self (hother id hid')
    · exact ⟨data, (Function.update_of_ne hsame ..).trans hdata, hcontains⟩
  | _ => trivial

/-- **A call keeps to its fields**, as long as the documents that are updated are there. -/
theorem keepsTo_tried {ι : Type} {calls : ι → DocumentCall}
    (hapart : ∀ i j, i ≠ j → (calls i).Apart (calls j)) (i : ι) :
    Local.KeepsTo field (fun m => ∀ j, (calls j).OfStored m) (calls i).fields
      fun m => m.tried (calls i) where
  good {m m'} hm hm' := by
    intro j
    refine ofStored_of_tried (hm i) (hm j) (fun hj => ?_) hm'
    by_cases hi : (calls i).isUpdate = true
    · exact Or.inl hi
    · have hij : i ≠ j := fun hij => hi (hij ▸ hj)
      exact Or.inr ((hapart i j hij).ids fun h => hi h.1)
  frame {m m'} hm hm' x hx := by
    have hi := hm i
    generalize calls i = call at *
    cases call with
    | create entropy doc =>
      obtain rfl := Option.some.inj hm'
      exact field_update_of_ne hx
    | delete id =>
      obtain rfl := Option.some.inj hm'
      exact field_update_of_ne hx
    | update entropy id ops upsert =>
      rw [tried_update hi] at hm'
      obtain ⟨-, -, data, hdata, hcontains⟩ := hi
      rw [hdata, Option.bind_some] at hm'
      obtain ⟨data', hdata', rfl⟩ := Option.map_eq_some_iff.mp hm'
      by_cases hid : x.1 = id
      · have hroots : x.2 ∉ ops.roots := fun h => hx ⟨hid, h⟩
        rw [field_update_self hid, field, hid, hdata, Option.map_some, Option.map_some]
        exact congrArg some (ops.keepsTo_updated.frame (Json.isObject_of_contains hcontains)
          hdata' x.2 hroots)
      · exact field_update_of_ne hid
  agree {m₁ m₂ m'} h₁ h₂ heq hm' := by
    have hi₁ := h₁ i
    have hi₂ := h₂ i
    generalize calls i = call at *
    cases call with
    | create entropy doc =>
      obtain rfl := Option.some.inj hm'
      refine ⟨_, rfl, fun x hx => ?_⟩
      rw [assign, assign, field_update_self hx, field_update_self hx]
    | delete id =>
      obtain rfl := Option.some.inj hm'
      refine ⟨_, rfl, fun x hx => ?_⟩
      rw [field_update_self hx, field_update_self hx]
    | update entropy id ops upsert =>
      rw [tried_update hi₁] at hm'
      rw [tried_update hi₂]
      obtain ⟨-, -, data₁, hdata₁, hcontains₁⟩ := hi₁
      obtain ⟨-, -, data₂, hdata₂, hcontains₂⟩ := hi₂
      rw [hdata₁, Option.bind_some] at hm'
      obtain ⟨data', hdata', rfl⟩ := Option.map_eq_some_iff.mp hm'
      have hseen : Set.EqOn data₂.find? data₁.find? {name | name ∈ ops.roots} := by
        intro name hname
        have hfield := heq (show (id, name) ∈ _ from ⟨rfl, hname⟩)
        rw [field, field, hdata₁, hdata₂] at hfield
        exact Option.some.inj hfield
      obtain ⟨data₂', hdata₂', hleft⟩ := ops.keepsTo_updated.agree
        (Json.isObject_of_contains hcontains₁) (Json.isObject_of_contains hcontains₂) hseen hdata'
      refine ⟨Function.update m₂ id (some data₂'), by rw [hdata₂, Option.bind_some, hdata₂']; rfl, ?_⟩
      intro x hx
      rw [field_update_self hx.1, field_update_self hx.1]
      exact congrArg some (hleft hx.2)

end DocumentMap

/-! ### Calls that are under way together -/

namespace DocumentCall

variable {ι : Type} {codec : Codec} {c : Collection} {calls : ι → DocumentCall}
  {e : StorageEngine} {p : Underway ι} {history : List (ι × ((x : Call) × x.Reply))}

/-- An engine call that is about one document reads no other one. -/
theorem eq_of_mem_documentRead {id id' : Bytes} {x : Call} (h : x.About codec c id')
    (hread : id ∈ x.documentRead c) : id = id' := by
  cases x with
  | get n key =>
    obtain ⟨rfl, hkey⟩ := Option.ite_none_right_eq_some.mp hread
    obtain rfl := Option.some.inj hkey
    rcases h.2.1 (.entry c.name_ key) (Or.inr rfl) with heq | heq
    · cases heq
    · exact (Cell.entry.inj heq).2
  | _ => cases hread

/-- Nor does it write another one. -/
theorem eq_of_mem_documentWritten {id id' : Bytes} {x : Call} (h : x.About codec c id')
    (hwritten : id ∈ x.documentWritten c) : id = id' := by
  have hown {l : Cell} (hl : l = .entry c.name_ id) (hmem : l ∈ x.cellsWritten) : id = id' := by
    subst hl
    rcases h.2.2 _ hmem with heq | ⟨f, key, -, heq⟩
    · exact (Cell.entry.inj heq).2
    · exact absurd (Cell.entry.inj heq).1.symm (indexFamily_ne c.name_ f)
  cases x with
  | put n key value =>
    obtain ⟨rfl, hkey⟩ := Option.ite_none_right_eq_some.mp hwritten
    obtain rfl := Option.some.inj hkey
    exact hown rfl rfl
  | remove n key =>
    obtain ⟨rfl, hkey⟩ := Option.ite_none_right_eq_some.mp hwritten
    obtain rfl := Option.some.inj hkey
    exact hown rfl rfl
  | _ => cases hwritten

/-- The calls under way keep to their documents. -/
abbrev KeptTogether (codec : Codec) (c : Collection) (calls : ι → DocumentCall)
    (p : Underway ι) : Prop :=
  Pool.Kept (Call.Finds codec) (IdsAgree codec)
    (fun i x => ∃ id ∈ (calls i).ids, x.About codec c id) p

/-- **Calls that do not get into each other's way are isolated.** -/
theorem isolated_of_apart [DecidableEq ι] (hkept : KeptTogether codec c calls p)
    (hapart : ∀ i j, i ≠ j → (calls i).Apart (calls j)) {p' : Underway ι}
    {label : ι × ((x : Call) × x.Reply)} (hstep : Pool.Step Serves p label p') :
    Isolated c calls p label := by
  intro j hj hboth _ x hx id hread hwritten
  obtain ⟨idj, hidj, habout⟩ := hkept.made j x hx
  obtain ⟨idi, hidi, habout'⟩ := hkept.of_step hstep
  obtain rfl := eq_of_mem_documentRead habout hread
  obtain rfl := eq_of_mem_documentWritten habout' hwritten
  exact (hapart label.1 j hj.symm).ids hboth id hidi hidj

/-- Every call might as well have started when it ended. -/
theorem run_undisturbed [DecidableEq ι] (hids : IdsAgree codec e) (hsep : Separable c.name_)
    (hapart : ∀ i j, i ≠ j → (calls i).Apart (calls j))
    (h : History.Run (Step calls) (together codec c calls e) history p) :
    KeptTogether codec c calls p ∧ History.Run (History.Meeting
      (Pool.Undisturbed (Call.reads c) (Call.writes c)) (Pool.Step Serves))
      (together codec c calls e) history p := by
  have hgood {i : ι} {x : Call} {e e' : StorageEngine} {r : x.Reply}
      (hx : ∃ id ∈ (calls i).ids, x.About codec c id) (he : IdsAgree codec e)
      (hserves : Serves x e r e') : x.Finds codec r ∧ IdsAgree codec e' := by
    obtain ⟨id, -, habout⟩ := hx
    exact he.serves habout.1 hserves
  induction h with
  | nil => exact ⟨Pool.kept_start hids fun i => (calls i).given_perform hsep, .nil⟩
  | snoc _ hstep ih =>
    obtain ⟨hkept, hrun⟩ := ih
    refine ⟨hkept.step hgood hstep.1, hrun.snoc ⟨?_, hstep.1⟩⟩
    exact undisturbed_of_isolated hstep.2 (isolated_of_apart hkept hapart hstep.1)

/-- Whether the call has reported OK. -/
def reportsOk : Outcome Exn Status → Bool
  | .ret status => status.ok
  | _ => false

/-- **The map of the documents** when calls have been made one after the other. -/
theorem represents_of_serial {m : DocumentMap} {outcome : ι → Outcome Exn Status} {order : List ι}
    {e' : StorageEngine} (hmap : Represents codec c m e)
    (h : Serial Serves (fun i => (calls i).perform codec c) outcome e order e') :
    Represents codec c (Local.attempts (fun i m => DocumentMap.tried m (calls i))
      (order.filter fun i => reportsOk (outcome i)) m) e' := by
  rw [Local.attempts, List.foldl_filter]
  refine h.simulates (R := Represents codec c) hmap ?_
  rintro m t i t' hm ⟨q, hleads, hdone, hending⟩
  obtain ⟨fates, fates', hrun⟩ := Client.exists_run_of_leads hleads
  have hstep : CollectionStep codec c t (.document (calls i), outcome i) t' :=
    ⟨fates, (congrArg Prod.fst hrun).trans hending, congrArg (fun x => x.2.engine) hrun⟩
  have hnext := hm.next hstep
  have hsame : m.next (.document (calls i), outcome i) = if reportsOk (outcome i) = true then
      Local.attempt (fun m => DocumentMap.tried m (calls i)) m else m := by
    rw [DocumentMap.attempt_tried, DocumentMap.next]
    rcases outcome i with status | _ | _ <;> rfl
  rwa [hsame] at hnext

theorem done_of_reportsOk {q : Engine Status} (h : reportsOk q.ending = true) : q.Done := by
  cases q with
  | call x k => cases h
  | _ => trivial

/-- **No update is lost**, and nothing else is: in every state that calls under way together reach,
the fields that a call works on are, if it has reported OK, as it alone would have left them; and
the fields that no such call works on are as they were. -/
theorem field_of_together [DecidableEq ι] [Finite ι] {m : DocumentMap}
    (hmap : Represents codec c m e) (hids : IdsAgree codec e) (hsep : Separable c.name_)
    (hstored : ∀ i, (calls i).OfStored m) (hapart : ∀ i j, i ≠ j → (calls i).Apart (calls j))
    (h : History.Run (Step calls) (together codec c calls e) history p) :
    ∃ m', Represents codec c m' p.state ∧ ∀ x : Bytes × Bytes,
      (∀ i, reportsOk (p.rest i).ending = true → x ∈ (calls i).fields →
        m'.field x = (m.apply (.document (calls i))).field x) ∧
      ((∀ i, reportsOk (p.rest i).ending = true → x ∉ (calls i).fields) → m'.field x = m.field x) := by
  have hcommits (i : ι) : ((calls i).perform codec c).Commits
      (fun x => x.OfDocuments c ∧ x.writes c = ∅) (Call.OfDocuments c) := by
    refine (commits_perform (calls i)).mono fun x hx => ⟨hx.1, ?_⟩
    ext l
    simp [Call.writes, hx.2]
  obtain ⟨order, e', hnodup, hmem, hserial, hsame⟩ :=
    Pool.serialisable (footprint c) hcommits (run_undisturbed hids hsep hapart h).2
  have hafter := (represents_of_serial hmap hserial).congr fun id => hsame (.document id)
  have hkeeps (i : ι) (_ : i ∈ order.filter fun i => reportsOk (p.rest i).ending) :=
    DocumentMap.keepsTo_tried hapart i
  refine ⟨_, hafter, fun x => ⟨fun i hi hx => ?_, fun hx => ?_⟩⟩
  · rw [← DocumentMap.attempt_tried]
    have hlisted : i ∈ order.filter fun i => reportsOk (p.rest i).ending :=
      List.mem_filter.mpr ⟨(hmem i).mpr (done_of_reportsOk hi), hi⟩
    exact Local.look_attempts_of_mem hkeeps hstored (hnodup.filter _) hlisted
      (fun j _ hj => (hapart i j hj.symm).fields) hx
  · exact Local.look_attempts_of_notMem hkeeps hstored fun i hi => hx i (List.mem_filter.mp hi).2

/-- A field of a document is set while another one is pushed onto, and a document is created. -/
def setPushAndCreate : Fin 3 → DocumentCall := ![
  .update ⟨0, fun _ => 0⟩ (Bytes.ofText "a") (updateOf "$set" [(Bytes.ofText "f", .integer 2)]) false,
  .update ⟨0, fun _ => 0⟩ (Bytes.ofText "a") (updateOf "$push" [(Bytes.ofText "g", .integer 3)]) false,
  .create ⟨0, fun _ => 0⟩ ⟨Bytes.ofText "b", .object []⟩]

theorem field_of_together_updates : ∃ p : Underway (Fin 3), ∃ m', (∀ i, (p.rest i).Done) ∧
    Represents .standard letterC m' p.state ∧
    m'.field (Bytes.ofText "a", Bytes.ofText "f") = some (some (.integer 2)) ∧
    m'.field (Bytes.ofText "a", Bytes.ofText "g") = some (some (.integer 3)) := by
  obtain ⟨haccepted, hempty, hsep, hapart, hallowed⟩ : Operation.acceptedAll .standard .fresh
        [.createCollection letterC.name_, .document letterC createPlain] = true ∧
      (plainAfter []).contents letterC.name_ = some ∅ ∧ Separable letterC.name_ ∧
      (∀ i j, i ≠ j → (setPushAndCreate i).Apart (setPushAndCreate j)) ∧
      Pool.allows (fun x e => StorageEngine.exec e none x) (mayTurn setPushAndCreate)
        [2, 1, 1, 2, 1, 0, 0, 0]
        (together .standard letterC setPushAndCreate (plainAfter [createPlain])) = true := by
    decide +kernel
  have hstep : CollectionStep .standard letterC (plainAfter [])
      (.document createPlain, .ret .OK) (plainAfter [createPlain]) :=
    ⟨Stream'.const .ok, by rfl, by rfl⟩
  have hmap := (represents_empty .standard hempty).next hstep
  have hids := idsAgree_of_okReachable (OkReachable.fresh.afterAll _ haccepted)
  have hset : (updateOf "$set" [(Bytes.ofText "f", .integer 2)]).roots = [Bytes.ofText "f"] := by
    decide
  have hpush : (updateOf "$push" [(Bytes.ofText "g", .integer 3)]).roots = [Bytes.ofText "g"] := by
    decide
  have hstored (i : Fin 3) : (setPushAndCreate i).OfStored
      (DocumentMap.next (fun _ => none) (.document createPlain, .ret .OK)) := by
    obtain ⟨_ | _ | _ | i, hi⟩ := i
    · exact ⟨by decide, by decide, _, rfl, rfl⟩
    · exact ⟨by decide, by decide, _, rfl, rfl⟩
    · trivial
    · omega
  obtain ⟨history, hrun⟩ := Pool.run_of_allows (fun p i => step_turn) hallowed
  obtain ⟨m', hm', hfields⟩ := field_of_together hmap hids hsep hstored hapart hrun
  have hf := (hfields (Bytes.ofText "a", Bytes.ofText "f")).1 0 (by decide +kernel)
    ⟨rfl, hset ▸ List.mem_singleton_self _⟩
  have hg := (hfields (Bytes.ofText "a", Bytes.ofText "g")).1 1 (by decide +kernel)
    ⟨rfl, hpush ▸ List.mem_singleton_self _⟩
  exact ⟨_, m', by decide +kernel, hm', hf.trans (by rfl), hg.trans (by rfl)⟩

end DocumentCall

end AnuDB
