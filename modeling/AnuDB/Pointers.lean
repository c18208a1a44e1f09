import AnuDB.Cache
import AnuDB.Requests

/-!
# Do the server's pointers dangle?

`collMap_` and `collections_` are two maps of one set of objects, and the database changes its
own without telling the server. It does so where an object is destroyed: when a collection is
created, and the handler stores the pointer to the new object right away; and when one is
dropped, which puts a new object in the place of the old one, whether or not RocksDB drops the
family in the end. The handler of that erases its pointer where the status is OK, and else keeps
one to an object that is gone.

So the pointers are alive (`AnuDB.Server.PointersLive`) in every state of a run exactly if no
request drops a collection that has a pointer and that RocksDB refuses to drop
(`AnuDB.Server.pointersLive_of_keepsPointers`). It always refuses its default family.
-/

namespace AnuDB

open Effect

/-- **Every pointer is to the object that is held under its name.** -/
def PointsInto (o : Objects) (m : CollMap) : Prop :=
  ∀ name pointer, m[name]? = some pointer → ∃ p, pointer = some p ∧ o.find name = some p

namespace PointsInto

variable {o o' : Objects} {m : CollMap} {name : Bytes}

/-- Objects that come do not matter to the pointers there are. -/
theorem of_find (h : PointsInto o m) (hfind : ∀ n p, o.find n = some p → o'.find n = some p) :
    PointsInto o' m := by
  intro n pointer hn
  obtain ⟨p, rfl, hp⟩ := h n pointer hn
  exact ⟨p, rfl, hfind n p hp⟩

/-- A pointer to the object that is held is stored. -/
theorem insert {p : Object} (h : ∀ n pointer, n ≠ name → m[n]? = some pointer →
    ∃ q, pointer = some q ∧ o.find n = some q) (hp : o.find name = some p) :
    PointsInto o (m.insert name (some p)) := by
  intro n pointer hn
  rw [Std.ExtTreeMap.getElem?_insert] at hn
  split_ifs at hn with heq
  · obtain rfl : name = n := Std.LawfulEqCmp.eq_of_compare heq
    exact ⟨p, (Option.some.inj hn).symm, hp⟩
  · exact h n pointer (fun hne => heq (hne ▸ Std.ReflCmp.compare_self)) hn

/-- Another object for a name leaves the other pointers alone. -/
theorem of_ne (h : PointsInto o m) {n : Bytes} {pointer : Option Object} (hne : n ≠ name)
    (hn : m[n]? = some pointer) : ∃ q, pointer = some q ∧ (o.replaced name).find n = some q := by
  obtain ⟨q, rfl, hq⟩ := h n pointer hn
  exact ⟨q, rfl, by rwa [Objects.find_replaced, if_neg hne]⟩

/-- The pointer of a name whose object is replaced is erased. -/
theorem erase (h : PointsInto o m) : PointsInto (o.replaced name) (m.erase name) := by
  intro n pointer hn
  rw [Std.ExtTreeMap.getElem?_erase] at hn
  split_ifs at hn with heq
  exact h.of_ne (fun hne => heq (hne ▸ Std.ReflCmp.compare_self)) hn

/-- **Where an object is replaced and its pointer is not**, there must have been none. -/
theorem replaced_iff (h : PointsInto o m) : PointsInto (o.replaced name) m ↔ name ∉ m := by
  constructor
  · intro h' hmem
    obtain ⟨pointer, hpointer⟩ := Option.isSome_iff_exists.mp
      (Std.ExtTreeMap.mem_iff_isSome_getElem?.mp hmem)
    obtain ⟨p, rfl, hp⟩ := h name pointer hpointer
    obtain ⟨q, hq, hfind⟩ := h' name _ hpointer
    rw [Objects.find_replaced, if_pos rfl] at hfind
    obtain rfl := Option.some.inj hq
    exact Objects.ne_next hp (Option.some.inj hfind).symm
  · intro hname n pointer hn
    refine h.of_ne (fun hne => hname ?_) hn
    rw [← hne, Std.ExtTreeMap.mem_iff_isSome_getElem?, hn]
    rfl

end PointsInto

namespace Service

/-- What is known where no pointer dangles. -/
abbrev Alive : Known := fun o _ m => PointsInto o m

/-! ### The handlers -/

theorem upholds_lookup (name : Bytes) : (lookup name).Upholds (On Alive) Alive := by
  refine Action.Triple.get_bind fun s hs => ?_
  split_ifs with hname
  · exact Action.Triple.pure fun s' hs' => hs' ▸ hs
  · refine Action.Triple.bind (Q := fun found s' => s'.collMap_ = s.collMap_ ∧
      s.objects.Got name (found, s'.objects)) (triple_database ?_ ?_) fun found => ?_
    · rintro s' a o w rfl hrun
      exact ⟨rfl, Objects.returns_getCollection.of_run hrun⟩
    · rintro s' e w rfl - -
      exact hs
    · -- the objects there were are there still
      have hkept {s' : Serving} (hgot : s.objects.Got name (found, s'.objects)) :
          ∀ n p, s.objects.find n = some p → s'.objects.find n = some p := by
        intro n p hp
        rcases hgot with ⟨q, -, hgot⟩ | ⟨hnone, hgot | hgot⟩
        · rwa [(Prod.mk.inj hgot).2]
        · rw [(Prod.mk.inj hgot).2, Objects.find_make, if_neg fun hne => ?_]
          · exact hp
          · rw [hne, hnone] at hp
            cases hp
        · rwa [(Prod.mk.inj hgot).2]
      cases found with
      | none =>
        refine Action.Triple.pure fun s' h => ?_
        obtain ⟨hmap, hgot⟩ := h
        change PointsInto s'.objects s'.collMap_
        rw [hmap]
        exact PointsInto.of_find hs (hkept hgot)
      | some p =>
        refine Action.Triple.bind (Q := fun _ => On Alive) (Action.Triple.modify ?_)
          fun _ => Action.Triple.pure fun _ h => h
        rintro s' ⟨hmap, hgot⟩
        rw [hmap]
        have hlive := hs.of_find (hkept hgot)
        refine PointsInto.insert (fun n pointer _ hn => hlive n pointer hn) ?_
        rcases hgot with ⟨q, hq, hgot⟩ | ⟨-, hgot | hgot⟩
        · obtain ⟨hp, ho⟩ := Prod.mk.inj hgot
          rw [ho, Option.some.inj hp]
          exact hq
        · obtain ⟨hp, ho⟩ := Prod.mk.inj hgot
          rw [ho, Option.some.inj hp, Objects.find_make, if_pos rfl]
        · cases (Prod.mk.inj hgot).1

variable {req : Json}

/-- What is known when the database has been asked to create a collection: if it has, the pointer
of the name may dangle until it is stored. -/
def MayDangle (name : Bytes) (result : Status) (s : Serving) : Prop :=
  result.ok = true ∧ (∃ o, PointsInto o s.collMap_ ∧ s.objects = o.replaced name) ∨
    result.ok = false ∧ PointsInto s.objects s.collMap_

theorem upholds_create_collection :
    (handle_create_collection req).Upholds (On Alive) Alive := by
  refine upholds_catching (upholds_ofExcept_bind (fun _ hs => hs) fun name => ?_)
  refine Action.Triple.bind (Q := MayDangle name) (triple_database ?_ ?_) fun result => ?_
  · intro s a o w hs hrun
    have hreturns := Objects.returns_createCollection.of_run hrun
    rcases hreturns with ⟨hok, ho⟩ | ⟨hok, ho⟩
    · exact Or.inl ⟨hok, s.objects, hs, ho⟩
    · obtain rfl : o = s.objects := ho
      exact Or.inr ⟨hok, hs⟩
  · exact fun s e w hs _ _ => hs
  refine Action.Triple.bind (Q := fun _ => MayDangle name result)
    (Action.Triple.modify fun s h => h) fun _ => ?_
  split_ifs with hok
  · refine Action.Triple.bind (Q := fun pointer s => ∃ o, PointsInto o s.collMap_ ∧
      s.objects = o.replaced name ∧ pointer = some ((o.without name).next name))
      (triple_database ?_ ?_) fun pointer => ?_
    · rintro s a o w (⟨-, o₁, hs, ho⟩ | ⟨hfalse, -⟩) hrun
      · have hfind : s.objects.find name = some ((o₁.without name).next name) := by
          rw [ho, Objects.find_replaced, if_pos rfl]
          rfl
        rw [Objects.getCollection_of_find hfind] at hrun
        obtain ⟨rfl, rfl⟩ := Prod.mk.inj (Outcome.ret.inj (Prod.mk.inj hrun).1)
        exact ⟨o₁, hs, ho, rfl⟩
      · rw [hok] at hfalse
        cases hfalse
    · rintro s e w (⟨-, o₁, hs, ho⟩ | ⟨hfalse, -⟩) hrun
      · have hfind : s.objects.find name = some ((o₁.without name).next name) := by
          rw [ho, Objects.find_replaced, if_pos rfl]
          rfl
        rw [Objects.getCollection_of_find hfind] at hrun
        cases (Prod.mk.inj hrun).1
      · rw [hok] at hfalse
        cases hfalse
    · refine Action.Triple.bind (Q := fun _ => On Alive) (Action.Triple.modify ?_)
        fun _ => upholds_answer _
      rintro s ⟨o, hs, ho, rfl⟩
      rw [ho]
      refine PointsInto.insert (fun n q hne hn => hs.of_ne hne hn) ?_
      rw [Objects.find_replaced, if_pos rfl]
      rfl
  · refine (upholds_answer _).mono ?_ (fun _ _ h => h) fun _ _ h => h
    rintro s (⟨hok', -⟩ | ⟨-, hs⟩)
    · exact absurd hok' hok
    · exact hs

/-- **Every other handler than that of `delete_collection` keeps the pointers alive.** -/
theorem upholds_of_ne {text : JsonText} {codec : Codec} {d : Delivery} {topic : Bytes}
    {command : Command} (h : command ≠ .delete_collection) :
    (command.handle text codec d req topic).Upholds (On Alive) Alive := by
  by_cases hcreate : command = .create_collection
  · subst hcreate
    exact upholds_create_collection
  · exact upholds_handle (fun _ _ _ _ _ _ hs => hs) upholds_lookup hcreate h

/-- A collection that is dropped has no pointer, or RocksDB does not refuse to drop it. -/
def DropKeeps (req : Json) (s : Serving) : Prop :=
  ∀ name, req.stringAt (Bytes.ofText "collection_name") = .ok name → name ∈ s.collMap_ →
    ¬s.objects.forget.FamilyRefused s.engine s.refusals name

/-- **The handler of `delete_collection` keeps the pointers alive exactly if** RocksDB does not
refuse to drop the collection, or it has no pointer. -/
theorem upholds_delete_collection {s₀ : Serving} (h : On Alive s₀) :
    (handle_delete_collection req).Upholds (· = s₀) fun o _ m =>
      PointsInto o m ↔ DropKeeps req s₀ := by
  refine upholds_catching (Action.Triple.ofExcept_bind (fun name hok => ?_) ?_)
  · refine Action.Triple.bind (Q := fun result s => s.collMap_ = s₀.collMap_ ∧
        s.objects = s₀.objects.replaced name ∧ (result.ok = true ↔
          ¬s₀.objects.forget.FamilyRefused s₀.engine s₀.refusals name))
      (triple_database ?_ ?_) fun result => ?_
    · rintro s a o w rfl hrun
      by_cases hname : name ∈ s.engine.columnFamilies_
      · rw [Objects.run_dropCollection_of_mem hname] at hrun
        obtain ⟨rfl, rfl⟩ := Prod.mk.inj (Outcome.ret.inj (Prod.mk.inj hrun).1)
        refine ⟨rfl, rfl, ?_⟩
        by_cases hrefused : s.objects.forget.FamilyRefused s.engine s.refusals name
        · have hfalse := (Database.dropCollection_of_refused hname hrefused).1
          simp [hfalse, hrefused]
        · have htrue := Database.dropCollection_of_not_refused hname hrefused
          simp [htrue, hrefused]
      · have hraise := @Objects.run_dropCollection_of_notMem s.objects name s.engine s.refusals hname
        rw [hrun] at hraise
        cases hraise
    · rintro s e w rfl hrun ⟨what, rfl⟩
      by_cases hname : name ∈ s.engine.columnFamilies_
      · rw [Objects.run_dropCollection_of_mem hname] at hrun
        cases (Prod.mk.inj hrun).1
      · have hraise := @Objects.run_dropCollection_of_notMem s.objects name s.engine s.refusals hname
        rw [hrun] at hraise
        cases hraise
    refine Action.Triple.bind (Q := fun _ s => s.collMap_ = s₀.collMap_ ∧
        s.objects = s₀.objects.replaced name ∧ (result.ok = true ↔
          ¬s₀.objects.forget.FamilyRefused s₀.engine s₀.refusals name))
      (Action.Triple.modify fun s hs => hs) fun _ => ?_
    split_ifs with hresult
    · refine Action.Triple.bind (Q := fun _ => On fun o _ m => PointsInto o m ↔ DropKeeps req s₀)
        (Action.Triple.modify ?_) fun _ => upholds_answer _
      rintro s ⟨hmap, ho, hiff⟩
      refine iff_of_true ?_ fun name' hok' _ => ?_
      · rw [hmap, ho]
        exact h.erase
      · obtain rfl := Except.ok.inj (hok.symm.trans hok')
        exact hiff.mp hresult
    · refine (upholds_answer (J := fun o _ m => PointsInto o m ↔ DropKeeps req s₀) _).mono ?_
        (fun _ _ hs => hs) fun _ _ hs => hs
      rintro s ⟨hmap, ho, hiff⟩
      change PointsInto s.objects s.collMap_ ↔ _
      rw [hmap, ho, h.replaced_iff]
      constructor
      · intro hname name' hok' hmem
        obtain rfl := Except.ok.inj (hok.symm.trans hok')
        exact absurd hmem hname
      · exact fun hkept hmem => hresult (hiff.mpr (hkept name hok hmem))
  · rintro e herror s rfl -
    refine iff_of_true h fun name hok => ?_
    rw [herror] at hok
    cases hok

end Service

/-! ### The pointers of a server -/

namespace Server

variable {text : JsonText} {codec : Codec} {s s' : Server} {d : Delivery}

/-- **No pointer dangles.** -/
def PointersLive (s : Server) : Prop := PointsInto s.objects s.collMap_

/-- **The condition on a request.** A collection that has a pointer is dropped only if RocksDB does
not refuse to. -/
def KeepsPointers (text : JsonText) (s : Server) (d : Delivery) : Prop :=
  ∀ req name, text.asked d.payload = .ok (.delete_collection, req) →
    req.stringAt (Bytes.ofText "collection_name") = .ok name → name ∈ s.collMap_ →
      ¬s.objects.forget.FamilyRefused s.engine d.refusals name

/-- **A request keeps the pointers alive exactly under the condition.** -/
theorem PointersLive.step_iff (hs : s.PointersLive) (h : s.Step text codec d s') :
    s'.PointersLive ↔ s.KeepsPointers text d := by
  have hon : Service.On Service.Alive (s.begun text d) := hs
  rcases hasked : text.asked d.payload with complaint | ⟨command, req⟩
  · refine iff_of_true ?_ fun req name h => ?_
    · refine h.of_upholds (J := Service.Alive) (serve_of_not_asked hasked) (Action.Triple.pure ?_)
      rintro s rfl
      exact hs
    · rw [hasked] at h
      cases h
  · have hserve := @serve_of_asked text codec s d command req hasked
    by_cases hcommand : command = .delete_collection
    · subst hcommand
      have hiff := h.of_upholds hserve
        (Service.upholds_catching (Service.upholds_delete_collection hon))
      refine hiff.trans ⟨fun hkept req' name h => ?_, fun hkept name => hkept req name hasked⟩
      obtain ⟨-, rfl⟩ := Prod.mk.inj (Except.ok.inj (hasked.symm.trans h))
      exact hkept name
    · refine iff_of_true ?_ fun req' name h => ?_
      · refine h.of_upholds hserve (J := Service.Alive) (Service.upholds_catching ?_)
        exact (Service.upholds_of_ne hcommand).mono (fun s hs => hs ▸ hon) (fun _ _ hs => hs)
          fun _ _ hs => hs
      · exact absurd (Prod.mk.inj (Except.ok.inj (hasked.symm.trans h))).1 hcommand

theorem pointersLive_started (e : StorageEngine) : (started e).PointersLive := by
  intro name pointer h
  rw [started, Std.ExtTreeMap.getElem?_empty] at h
  cases h

/-- **No pointer dangles** in any state of a run in which every request meets the condition; and
that is so in all of them only if they do. -/
theorem pointersLive_of_keepsPointers {e : StorageEngine} {history : List Delivery} :
    (History.Run (History.Meeting (KeepsPointers text) (Step text codec)) (started e) history s →
      s.PointersLive) ∧
    (History.Run (History.Into PointersLive (Step text codec)) (started e) history s ↔
      History.Run (History.Meeting (KeepsPointers text) (Step text codec)) (started e) history s) := by
  have hiff := @History.Run.into_iff_meeting _ _ (Step text codec) (started e) s history PointersLive
    (KeepsPointers text) (pointersLive_started e) fun hs h => hs.step_iff h
  exact ⟨fun h => (hiff.mpr h).of_into (pointersLive_started e), hiff⟩

/-- A collection is created and dropped. -/
def createdAndDropped : List Delivery :=
  [.named "create_collection" "c", .named "delete_collection" "c"]

theorem pointersLive_createdAndDropped : ∃ s, History.Run (Step .standard .standard)
    (started .fresh) createdAndDropped s ∧ s.PointersLive := by
  have hcreate : (started .fresh).KeepsPointers .standard (.named "create_collection" "c") := by
    intro req name h
    have hasked : (JsonText.standard.asked (Delivery.named "create_collection" "c").payload
        ).toOption.map Prod.fst = some .delete_collection :=
      congrArg (fun x => x.toOption.map Prod.fst) h
    exact absurd hasked (by decide +kernel)
  have hdrop (s : Server) (hlast : s.objects.forget.lastRefusal s.engine (Stream'.const none)
      (Bytes.ofText "c") = none) :
      s.KeepsPointers .standard (.named "delete_collection" "c") := by
    rintro req name h hname -
    have hasked : (JsonText.standard.asked (Delivery.named "delete_collection" "c").payload
        ).toOption.map (fun x => (x.2.stringAt (Bytes.ofText "collection_name")).toOption) =
          some (some (Bytes.ofText "c")) := by decide +kernel
    rw [h] at hasked
    change some (req.stringAt (Bytes.ofText "collection_name")).toOption = _ at hasked
    rw [hname] at hasked
    obtain rfl : name = Bytes.ofText "c" := Option.some.inj (Option.some.inj hasked)
    refine not_or.mpr ⟨by decide, ?_⟩
    change ¬(s.objects.forget.lastRefusal s.engine (Stream'.const none) _).isSome = true
    rw [hlast]
    simp
  have hnil : History.Run (History.Meeting (KeepsPointers .standard) (Step .standard .standard))
      (started .fresh) [] (started .fresh) := .nil
  have hrun := (hnil.snoc ⟨hcreate, step_after (by decide +kernel)⟩).snoc
    ⟨hdrop _ (by decide +kernel), step_after (by decide +kernel)⟩
  exact ⟨_, hrun.of_meeting, pointersLive_of_keepsPointers.1 hrun⟩

/-- A pointer to the default family is taken, and then the family is to be dropped. -/
def defaultDropped : List Delivery :=
  [.named "get_indexes" "default", .named "delete_collection" "default"]

/-- **A pointer to an object that is gone is kept.** -/
theorem not_pointersLive_of_refused : ∃ s, History.Run (Step .standard .standard)
    (started .fresh) defaultDropped s ∧ ¬s.PointersLive := by
  refine ⟨_, (History.Run.nil.snoc (step_after (by decide +kernel))).snoc
    (step_after (by decide +kernel)), fun h => ?_⟩
  obtain ⟨p, hp, hfind⟩ := h kDefaultColumnFamilyName
    (some ⟨⟨kDefaultColumnFamilyName⟩, 0⟩) (by decide +kernel)
  obtain rfl := Option.some.inj hp
  exact absurd hfind (by decide +kernel)

end Server

end AnuDB
