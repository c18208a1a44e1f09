import AnuDB.Creates
import AnuDB.Import

/-!
# The items of an import

The loop of an import, with what it makes of every item: the id it is stored under, or none
(`AnuDB.Collection.importLoop`). It is the loop of `importFromJsonFile`, which keeps the two
counts only (`AnuDB.Collection.importItems_eq`).

Two things are said of it. An item without an `_id` is stored under `doc_` and its place in the
file, and whether that id is in use is not looked at, so its document takes the place of another
one wherever it is (`AnuDB.Collection.countedApart_iff`). And an item is passed over where it is
not an object, or where the create reports an error, but not where something is thrown: an `_id`
that is no string, or a value without a key in an indexed field, ends the import
(`AnuDB.Collection.processesAll_iff`).
-/

namespace AnuDB

open Effect

/-- What the loop of an import has made of its items. -/
structure ImportSummary where
  /-- How many were stored. -/
  successCount : ℕ
  /-- How many were not. -/
  failureCount : ℕ
  /-- The id each item was stored under, and none for an item that was not. -/
  ids : List (Option Bytes)

/-- The summary with an item before the others. -/
def ImportSummary.after (id : Option Bytes) (summary : ImportSummary) : ImportSummary :=
  { summary with ids := id :: summary.ids }

/-- The id that is counted out. -/
def countedId (n : ℕ) : Bytes := Bytes.ofText "doc_" ++ Bytes.decimal n

/-- What is returned after a function of it is what the function makes of something. -/
theorem Engine.ret_of_run_map {α β : Type} {f : α → β} {p : Engine α} {b : β} {w w' : World}
    (h : (f <$> p : Engine β).run w = (.ret b, w')) : ∃ a, p.run w = (.ret a, w') ∧ f a = b := by
  rw [Engine.run, Prog.run_map] at h
  rcases hrun : Prog.run World.handle p w with ⟨a | exn | _, w₁⟩ <;> rw [hrun] at h
  · obtain ⟨hret, rfl⟩ := Prod.mk.inj h
    exact ⟨a, hrun, Outcome.ret.inj hret⟩
  · cases (Prod.mk.inj h).1
  · cases (Prod.mk.inj h).1

/-- What a function makes of what is returned is returned. -/
theorem Engine.run_map_of_ret {α β : Type} {f : α → β} {p : Engine α} {a : α} {w w' : World}
    (h : p.run w = (.ret a, w')) : (f <$> p : Engine β).run w = (.ret (f a), w') := by
  rw [Engine.run] at h
  rw [Engine.run, Prog.run_map, h]
  rfl

theorem Engine.run_map_of_raise {α β : Type} {f : α → β} {p : Engine α} {exn : Exn} {w w' : World}
    (h : p.run w = (.raise exn, w')) : (f <$> p : Engine β).run w = (.raise exn, w') := by
  rw [Engine.run] at h
  rw [Engine.run, Prog.run_map, h]
  rfl

namespace Collection

variable (codec : Codec) (c : Collection)

/-- The loop of an import over the items of the array, with what it makes of each. -/
def importLoop (entropies : Stream' Entropy) (successCount failureCount : ℕ) :
    List Json → Engine ImportSummary
  | [] => pure ⟨successCount, failureCount, []⟩
  | item :: items =>
    if item.isObject then do
      let docId ← Prog.ofExcept (importId successCount failureCount item)
      let (status, doc) ← c.createDocument codec entropies.head ⟨docId, item⟩
      if status.ok then
        ImportSummary.after (some doc.id_) <$>
          importLoop entropies.tail (successCount + 1) failureCount items
      else ImportSummary.after none <$> importLoop entropies.tail successCount (failureCount + 1) items
    else ImportSummary.after none <$> importLoop entropies.tail successCount (failureCount + 1) items

/-- **It is the loop of the import.** -/
theorem importItems_eq (entropies : Stream' Entropy) (successCount failureCount : ℕ)
    (items : List Json) : c.importItems codec entropies successCount failureCount items =
      (fun _ => ()) <$> c.importLoop codec entropies successCount failureCount items := by
  induction items generalizing entropies successCount failureCount with
  | nil => rfl
  | cons item items ih =>
    rw [importItems, importLoop]
    split_ifs
    · rw [map_bind]
      congr 1
      funext docId
      rw [map_bind]
      congr 1
      funext created
      obtain ⟨status, doc⟩ := created
      dsimp only
      split_ifs <;> rw [ih, Functor.map_map]
    · rw [ih, Functor.map_map]

/-- **What an import comes to** where the file holds an array: it reports OK if its loop comes to
its end. -/
theorem run_importFromJsonFile_of_array (text : JsonText) (entropies : Stream' Entropy)
    (filePath : Bytes) {contents : Bytes} {items : List Json} {w w' : World}
    {summary : ImportSummary} (hread : text.read contents = .ok (.array items))
    (hrun : (c.importLoop codec entropies 0 0 items).run w = (.ret summary, w')) :
    (c.importFromJsonFile text codec entropies filePath (some contents)).run w =
      (.ret .OK, w') := by
  rw [Engine.run] at hrun
  rw [importFromJsonFile, Engine.run, Prog.run_tryCatch, importContents, hread,
    Prog.run_ofExcept_bind]
  simp only [Except.mapError]
  rw [Prog.run_bind, importItems_eq, Prog.run_map, hrun]
  rfl

/-! ### What an item asks for -/

section Items

variable {codec} {c : Collection} {e e₁ e' : StorageEngine} {item : Json} {id : Bytes}

/-- The id an item at a place is stored under: the one it names, or one that is generated where
it names the empty one; and one that is counted out where it names none. -/
def StoredUnder (n : ℕ) (item : Json) (id : Bytes) : Prop :=
  (item.find? idField = none ∧ id = countedId n) ∨
    ∃ docId entropy, item.find? idField = some (.string docId) ∧
      id = DocumentMap.target entropy docId

/-- The value in the first index there is on a field of the data has a key. -/
def FirstKeyed (codec : Codec) (c : Collection) (e : StorageEngine) (data : Json) : Prop :=
  ∀ f value, (e.getIndexNames c.name_).find? (fun f => hasIndexField data f) = some f →
    data.find? f = some value → ∃ k, parseValue codec value = .ok k

/-- **An item can be passed**: it is not an object, or its `_id`, if it has one, is a string, and
the value in the first index on a field of it, with the `_id`, has a key. -/
def Passes (codec : Codec) (c : Collection) (e : StorageEngine) (item : Json) : Prop :=
  item.isObject = true → (∀ id, item.find? idField = some id → ∃ s, id = .string s) ∧
    ∀ id, FirstKeyed codec c e (identified id item)

/-- **An object that a create could store on its own**: its `_id`, if it has one, is a string, and
its values in indexed fields have keys. -/
def WellFormed (codec : Codec) (c : Collection) (e : StorageEngine) (item : Json) : Prop :=
  (∀ id, item.find? idField = some id → ∃ s, id = .string s) ∧ Keyed codec c e item

/-- The collection is there or not, and its indexes are the same. -/
def SameFamilies (c : Collection) (e e' : StorageEngine) : Prop :=
  (c.name_ ∈ e'.columnFamilies_ ↔ c.name_ ∈ e.columnFamilies_) ∧
    e'.getIndexNames c.name_ = e.getIndexNames c.name_

/-- An object with its `_id`, member by member. -/
theorem find?_identified (hobject : item.isObject = true) (f : Bytes) :
    (identified id item).find? f =
      if f = idField ∧ item.find? idField = none then some (.string id) else item.find? f := by
  cases item with
  | object members =>
    rw [identified]
    rcases hmember : members.lookup idField with _ | value
    · rw [Option.isSome_none, if_neg (by simp)]
      change (Assoc.set idField (.string id) members).lookup f = if f = idField ∧
        members.lookup idField = none then _ else members.lookup f
      by_cases hf : f = idField
      · rw [hf, Assoc.lookup_set_self, if_pos ⟨rfl, hmember⟩]
      · rw [Assoc.lookup_set_of_ne hf, if_neg fun h => hf h.1]
    · rw [Option.isSome_some, if_pos rfl, if_neg]
      rintro ⟨-, h⟩
      change members.lookup idField = none at h
      rw [hmember] at h
      cases h
  | _ => cases hobject

/-- The `_id` that is added has a key. -/
theorem keyed_identified (hobject : item.isObject = true) :
    Keyed codec c e (identified id item) ↔ Keyed codec c e item := by
  simp only [Keyed, find?_identified hobject]
  refine forall₂_congr fun f _ => ⟨fun h value hvalue => ?_, fun h value hvalue => ?_⟩
  · refine h value ?_
    rw [if_neg]
    · exact hvalue
    · rintro ⟨rfl, hnone⟩
      rw [hnone] at hvalue
      cases hvalue
  · split_ifs at hvalue
    · obtain rfl := Option.some.inj hvalue
      exact ⟨id, rfl⟩
    · exact h value hvalue

/-- Which id is added does not matter to whether the first value has a key. -/
theorem FirstKeyed.identified (hobject : item.isObject = true)
    (h : FirstKeyed codec c e (identified id item)) (id' : Bytes) :
    FirstKeyed codec c e (AnuDB.identified id' item) := by
  have hfields : (fun f => hasIndexField (AnuDB.identified id' item) f) =
      fun f => hasIndexField (AnuDB.identified id item) f := by
    funext f
    rw [hasIndexField, hasIndexField, Json.contains, Json.contains, find?_identified hobject,
      find?_identified hobject]
    split_ifs <;> rfl
  intro f value hf hvalue
  rw [hfields] at hf
  rw [find?_identified hobject] at hvalue
  split_ifs at hvalue with hadded
  · obtain rfl := Option.some.inj hvalue
    exact ⟨id', rfl⟩
  · exact h f value hf (by rw [find?_identified hobject, if_neg hadded, hvalue])

theorem Keyed.firstKeyed {data : Json} (h : Keyed codec c e data) : FirstKeyed codec c e data :=
  fun f value hf hvalue => h f (List.mem_of_find?_eq_some hf) value hvalue

theorem SameFamilies.refl (c : Collection) (e : StorageEngine) : SameFamilies c e e :=
  ⟨Iff.rfl, rfl⟩

/-- A create leaves the families as they are. -/
theorem sameFamilies_createDocument (entropy : Entropy) (doc : Document) (w : World) :
    SameFamilies c w.engine ((c.createDocument codec entropy doc).run w).2.engine := by
  refine ⟨mem_run_createDocument, ?_⟩
  exact StorageEngine.getIndexNames_congr (fun _ => mem_run_createDocument) c.name_

theorem SameFamilies.passes_iff (h : SameFamilies c e e₁) : Passes codec c e₁ item ↔ Passes codec c e item := by
  simp only [Passes, FirstKeyed, h.2]

theorem SameFamilies.wellFormed_iff (h : SameFamilies c e e₁) :
    WellFormed codec c e₁ item ↔ WellFormed codec c e item := by
  simp only [WellFormed, Keyed, h.2]

/-! ### How the loop can have gone -/

/-- **How the loop can have gone** over items from a place on: each is stored under its id, or is
not and the documents are as they were. -/
inductive Imported (codec : Codec) (c : Collection) :
    ℕ → StorageEngine → List Json → List (Option Bytes) → StorageEngine → Prop
  | nil {n : ℕ} {e : StorageEngine} : Imported codec c n e [] [] e
  | stored {n : ℕ} {e e₁ e' : StorageEngine} {item : Json} {items : List Json} {id : Bytes}
      {ids : List (Option Bytes)} (hobject : item.isObject = true)
      (hfamily : c.name_ ∈ e.columnFamilies_) (hformed : WellFormed codec c e item)
      (hid : StoredUnder n item id) (hsame : SameFamilies c e e₁)
      (hlookup : ∀ key, e₁.lookup c.name_ key = if key = id then
        some (Document.to_msgpack codec ⟨id, identified id item⟩) else e.lookup c.name_ key)
      (hrest : Imported codec c (n + 1) e₁ items ids e') :
      Imported codec c n e (item :: items) (some id :: ids) e'
  | passed {n : ℕ} {e e₁ e' : StorageEngine} {item : Json} {items : List Json}
      {ids : List (Option Bytes)} (hpasses : Passes codec c e item) (hsame : SameFamilies c e e₁)
      (hlookup : ∀ key, e₁.lookup c.name_ key = e.lookup c.name_ key)
      (hrest : Imported codec c (n + 1) e₁ items ids e') :
      Imported codec c n e (item :: items) (none :: ids) e'

/-- What the first index has no key for ends a create at once. -/
theorem firstKeyed_of_ret {entropy : Entropy} {doc doc' doc'' : Document} {w w' : World}
    {status : Status} (hdoc : (assignId entropy doc).withId = .ok doc')
    (h : (c.createDocument codec entropy doc).run w = (.ret (status, doc''), w')) :
    FirstKeyed codec c w.engine doc'.data_ := by
  intro f value hf hvalue
  rcases hkey : parseValue codec value with exn | k
  · -- the first step throws
    exfalso
    have hsteps : ∃ rest, DocumentCall.storeSteps codec c doc'
        (w.engine.getIndexNames c.name_) = .error exn :: rest := by
      rw [← List.head?_filter] at hf
      obtain ⟨rest, hrest⟩ := List.head?_eq_some_iff.mp hf
      rw [DocumentCall.storeSteps, DocumentCall.entrySteps, hrest, List.map_cons, entryKey, hvalue,
        Option.getD_some, indexKey, hkey]
      exact ⟨_, rfl⟩
    obtain ⟨rest, hrest⟩ := hsteps
    rw [run_createDocument hdoc, hrest] at h
    split_ifs at h
    · cases (Prod.mk.inj h).1
    · cases (Prod.mk.inj h).1
  · exact ⟨k, rfl⟩

theorem countedId_ne_nil (n : ℕ) : countedId n ≠ [] := by
  rw [countedId]
  exact List.append_ne_nil_of_left_ne_nil (by decide) _

theorem countedId_injective {n m : ℕ} (h : countedId n = countedId m) : n = m := by
  have hdecimal := congrArg Bytes.ofDecimal (List.append_cancel_left h)
  rwa [Bytes.ofDecimal_decimal, Bytes.ofDecimal_decimal] at hdecimal

/-- No id that is counted out is generated: an underscore is in none. -/
theorem countedId_ne_generateId (n : ℕ) (entropy : Entropy) : countedId n ≠ generateId entropy := by
  have hcharacter (k : ℕ) : alphanum.getD k 0 ≠ 95 := by
    have hall : (alphanum.all fun b => b != 95) = true := by decide
    rw [List.getD_eq_getElem?_getD]
    rcases hk : alphanum[k]? with _ | b
    · decide
    · exact bne_iff_ne.mp (List.all_eq_true.mp hall b (List.mem_of_getElem? hk))
  intro h
  have hfourth : (generateId entropy)[3]? = some 95 := by
    rw [← h]
    rfl
  exact hcharacter _ (Option.some.inj hfourth)

/-- What an item is created as, where its id is known. -/
theorem storedUnder_of_importId {successCount failureCount : ℕ} {docId : Bytes}
    (h : importId successCount failureCount item = .ok docId) (entropy : Entropy) :
    (∀ id, item.find? idField = some id → ∃ s, id = .string s) ∧
      StoredUnder (successCount + failureCount) item (DocumentMap.target entropy docId) := by
  refine ⟨fun id hid => ⟨docId, find?_of_importId h hid⟩, ?_⟩
  rcases hid : item.find? idField with _ | id
  · refine Or.inl ⟨hid, ?_⟩
    rw [importId, hid] at h
    obtain rfl : countedId _ = docId := Except.ok.inj h
    rw [DocumentMap.target, if_neg (countedId_ne_nil _)]
  · obtain rfl := find?_of_importId h hid
    exact Or.inr ⟨docId, entropy, hid, rfl⟩

/-! ### One item after the other -/

/-- The loop after an object whose create returns. -/
theorem run_importLoop_cons {entropies : Stream' Entropy} {successCount failureCount : ℕ}
    (items : List Json) {docId : Bytes} {status : Status} {doc : Document} {w w₁ : World}
    (hobject : item.isObject = true) (hid : importId successCount failureCount item = .ok docId)
    (hcreate : (c.createDocument codec entropies.head ⟨docId, item⟩).run w =
      (.ret (status, doc), w₁)) :
    (c.importLoop codec entropies successCount failureCount (item :: items)).run w =
      if status.ok then (ImportSummary.after (some doc.id_) <$>
        c.importLoop codec entropies.tail (successCount + 1) failureCount items :
          Engine ImportSummary).run w₁
      else (ImportSummary.after none <$>
        c.importLoop codec entropies.tail successCount (failureCount + 1) items :
          Engine ImportSummary).run w₁ := by
  rw [Engine.run] at hcreate
  rw [importLoop, if_pos hobject, Engine.run, Prog.run_ofExcept_bind, hid]
  simp only
  rw [Prog.run_bind, hcreate]
  simp only
  split_ifs <;> rfl

/-- The loop after an item that is no object. -/
theorem run_importLoop_cons_of_not {entropies : Stream' Entropy} {successCount failureCount : ℕ}
    {items : List Json} {w : World} (hobject : ¬item.isObject = true) :
    (c.importLoop codec entropies successCount failureCount (item :: items)).run w =
      (ImportSummary.after none <$>
        c.importLoop codec entropies.tail successCount (failureCount + 1) items :
          Engine ImportSummary).run w := by
  rw [importLoop, if_neg hobject]

/-- Where the loop comes to its end, an object it meets has an id and its create returns. -/
theorem exists_created {entropies : Stream' Entropy} {successCount failureCount : ℕ}
    {items : List Json} {w w' : World} {summary : ImportSummary} (hobject : item.isObject = true)
    (h : (c.importLoop codec entropies successCount failureCount (item :: items)).run w =
      (.ret summary, w')) :
    ∃ docId status doc w₁, importId successCount failureCount item = .ok docId ∧
      (c.createDocument codec entropies.head ⟨docId, item⟩).run w = (.ret (status, doc), w₁) := by
  rw [importLoop, if_pos hobject, Engine.run, Prog.run_ofExcept_bind] at h
  rcases hid : importId successCount failureCount item with exn | docId
  · rw [hid] at h
    cases (Prod.mk.inj h).1
  · rw [hid] at h
    simp only at h
    rw [Prog.run_bind] at h
    rcases hcreate : Prog.run World.handle (c.createDocument codec entropies.head ⟨docId, item⟩) w
      with ⟨⟨status, doc⟩ | exn | _, w₁⟩
    · exact ⟨docId, status, doc, w₁, rfl, hcreate⟩
    · rw [hcreate] at h
      cases (Prod.mk.inj h).1
    · rw [hcreate] at h
      cases (Prod.mk.inj h).1

/-- **What the loop does with an item**, where it comes to its end: it stores it, or passes it
over. -/
theorem importLoop_cons_cases {entropies : Stream' Entropy} {successCount failureCount : ℕ}
    {items : List Json} {w w' : World} {summary : ImportSummary}
    (h : (c.importLoop codec entropies successCount failureCount (item :: items)).run w =
      (.ret summary, w')) :
    (∃ id w₁ rest, item.isObject = true ∧ c.name_ ∈ w.engine.columnFamilies_ ∧
      WellFormed codec c w.engine item ∧ StoredUnder (successCount + failureCount) item id ∧
      SameFamilies c w.engine w₁.engine ∧
      (∀ key, w₁.engine.lookup c.name_ key = if key = id then
        some (Document.to_msgpack codec ⟨id, identified id item⟩)
          else w.engine.lookup c.name_ key) ∧
      (c.importLoop codec entropies.tail (successCount + 1) failureCount items).run w₁ =
        (.ret rest, w') ∧ summary = .after (some id) rest) ∨
    ∃ w₁ rest, Passes codec c w.engine item ∧ SameFamilies c w.engine w₁.engine ∧
      (∀ key, w₁.engine.lookup c.name_ key = w.engine.lookup c.name_ key) ∧
      (c.importLoop codec entropies.tail successCount (failureCount + 1) items).run w₁ =
        (.ret rest, w') ∧ summary = .after none rest := by
  by_cases hobject : item.isObject = true
  · obtain ⟨docId, status, doc, w₁, hid, hcreate⟩ := exists_created hobject h
    rw [run_importLoop_cons items hobject hid hcreate] at h
    have hsame := @sameFamilies_createDocument codec c entropies.head ⟨docId, item⟩ w
    obtain ⟨hstring, hunder⟩ := storedUnder_of_importId hid entropies.head
    have hdoc := withId_assignId_of_object ⟨docId, item⟩ entropies.head (Or.inl hobject)
    have hfirst := firstKeyed_of_ret hdoc hcreate
    rw [hcreate] at hsame
    rcases createDocument_cases codec c entropies.head ⟨docId, item⟩ w with
      ⟨status', doc', w₂, hrun, hok, hdoc', hkeyed, hlookup⟩ | ⟨hfailed, hlookup⟩
    · -- the document is there, so the collection is
      obtain ⟨hret, rfl⟩ := Prod.mk.inj (hcreate.symm.trans hrun)
      obtain ⟨rfl, rfl⟩ := Prod.mk.inj (Outcome.ret.inj hret)
      obtain rfl := Except.ok.inj (hdoc.symm.trans hdoc')
      set id := DocumentMap.target entropies.head docId
      have hfamily : c.name_ ∈ w.engine.columnFamilies_ :=
        hsame.1.mp (StorageEngine.mem_of_lookup ((hlookup id).trans (if_pos rfl)))
      rw [if_pos hok] at h
      obtain ⟨rest, hrest, hsummary⟩ := Engine.ret_of_run_map h
      exact Or.inl ⟨id, w₁, rest, hobject, hfamily,
        ⟨hstring, (keyed_identified hobject).mp hkeyed⟩, hunder, hsame, hlookup, hrest,
        hsummary.symm⟩
    · -- the item is counted as a failure, and the loop goes on
      rw [hcreate] at hlookup
      have hnot : status.ok = false := hfailed status doc (by rw [hcreate])
      rw [hnot, if_neg Bool.false_ne_true] at h
      obtain ⟨rest, hrest, hsummary⟩ := Engine.ret_of_run_map h
      exact Or.inr ⟨w₁, rest, fun _ => ⟨hstring, hfirst.identified hobject⟩, hsame, hlookup, hrest,
        hsummary.symm⟩
  · rw [run_importLoop_cons_of_not hobject] at h
    obtain ⟨rest, hrest, hsummary⟩ := Engine.ret_of_run_map h
    exact Or.inr ⟨w, rest, fun hobject' => absurd hobject' hobject, .refl c _, fun _ => rfl, hrest,
      hsummary.symm⟩

/-- **What the loop has done** where it comes to its end. -/
theorem imported_of_run {entropies : Stream' Entropy} {successCount failureCount : ℕ}
    {items : List Json} {w w' : World} {summary : ImportSummary}
    (h : (c.importLoop codec entropies successCount failureCount items).run w =
      (.ret summary, w')) :
    Imported codec c (successCount + failureCount) w.engine items summary.ids w'.engine ∧
      summary.successCount = successCount + summary.ids.countP Option.isSome ∧
      summary.failureCount = failureCount + summary.ids.countP Option.isNone := by
  induction items generalizing entropies successCount failureCount w summary with
  | nil =>
    obtain ⟨hsummary, rfl⟩ := Prod.mk.inj h
    obtain rfl := Outcome.ret.inj hsummary
    exact ⟨.nil, rfl, rfl⟩
  | cons item items ih =>
    rcases importLoop_cons_cases h with
      ⟨id, w₁, rest, hobject, hfamily, hformed, hunder, hsame, hlookup, hrest, rfl⟩ |
      ⟨w₁, rest, hpasses, hsame, hlookup, hrest, rfl⟩
    · obtain ⟨himported, hsuccess, hfailure⟩ := ih hrest
      rw [Nat.add_right_comm] at himported
      refine ⟨.stored hobject hfamily hformed hunder hsame hlookup himported, ?_, ?_⟩
      · rw [ImportSummary.after, hsuccess, List.countP_cons_of_pos (by rfl)]
        omega
      · rw [ImportSummary.after, hfailure, List.countP_cons_of_neg (by simp)]
    · obtain ⟨himported, hsuccess, hfailure⟩ := ih hrest
      refine ⟨.passed hpasses hsame hlookup himported, ?_, ?_⟩
      · rw [ImportSummary.after, hsuccess, List.countP_cons_of_neg (by simp)]
      · rw [ImportSummary.after, hfailure, List.countP_cons_of_pos (by rfl)]
        omega

/-! ### What is known of a loop that came to its end -/

theorem WellFormed.passes (h : WellFormed codec c e item) : Passes codec c e item := fun hobject =>
  ⟨h.1, fun _ => ((keyed_identified hobject).mpr h.2).firstKeyed⟩

namespace Imported

variable {n i : ℕ} {items : List Json} {ids : List (Option Bytes)}

theorem length_eq (h : Imported codec c n e items ids e') : ids.length = items.length := by
  induction h with
  | nil => rfl
  | stored _ _ _ _ _ _ _ ih => rw [List.length_cons, List.length_cons, ih]
  | passed _ _ _ _ ih => rw [List.length_cons, List.length_cons, ih]

/-- An item that is stored is an object a create could store on its own, and its id is the one it
asks for. -/
theorem of_stored (h : Imported codec c n e items ids e') (hi : ids[i]? = some (some id)) :
    ∃ item, items[i]? = some item ∧ item.isObject = true ∧ c.name_ ∈ e.columnFamilies_ ∧
      WellFormed codec c e item ∧ StoredUnder (n + i) item id := by
  induction h generalizing i with
  | nil => cases hi
  | stored hobject hfamily hformed hid hsame _ _ ih =>
    cases i with
    | zero =>
      obtain rfl := Option.some.inj (Option.some.inj hi)
      exact ⟨_, rfl, hobject, hfamily, hformed, hid⟩
    | succ i =>
      obtain ⟨item, hitem, hobject', hfamily', hformed', hid'⟩ := ih hi
      refine ⟨item, hitem, hobject', hfamily, hsame.wellFormed_iff.mp hformed', ?_⟩
      rwa [Nat.add_right_comm] at hid'
  | passed hpasses hsame _ _ ih =>
    cases i with
    | zero => cases hi
    | succ i =>
      obtain ⟨item, hitem, hobject', hfamily', hformed', hid'⟩ := ih hi
      refine ⟨item, hitem, hobject', hsame.1.mp hfamily', hsame.wellFormed_iff.mp hformed', ?_⟩
      rwa [Nat.add_right_comm] at hid'

/-- Every item could be passed. -/
theorem passes (h : Imported codec c n e items ids e') (hitem : item ∈ items) :
    Passes codec c e item := by
  induction h with
  | nil => exact absurd hitem List.not_mem_nil
  | stored _ _ hformed _ hsame _ _ ih =>
    rcases List.mem_cons.mp hitem with rfl | hitem
    · exact hformed.passes
    · exact hsame.passes_iff.mp (ih hitem)
  | passed hpasses hsame _ _ ih =>
    rcases List.mem_cons.mp hitem with rfl | hitem
    · exact hpasses
    · exact hsame.passes_iff.mp (ih hitem)

/-- Under an id no item is stored under there is what there was. -/
theorem lookup_of_not_mem (h : Imported codec c n e items ids e') (hid : some id ∉ ids) :
    e'.lookup c.name_ id = e.lookup c.name_ id := by
  induction h with
  | nil => rfl
  | stored _ _ _ _ _ hlookup _ ih =>
    obtain ⟨hne, hid⟩ := not_or.mp fun h => hid (List.mem_cons.mpr h)
    rw [ih hid, hlookup, if_neg fun h => hne (congrArg some h)]
  | passed _ _ hlookup _ ih => rw [ih fun h => hid (List.mem_cons_of_mem _ h), hlookup]

/-- **Under an id some item is stored under** there is one of them. -/
theorem exists_document (h : Imported codec c n e items ids e') (hid : some id ∈ ids) :
    ∃ (i : ℕ) (item : Json), items[i]? = some item ∧ ids[i]? = some (some id) ∧
      e'.document codec c.name_ id = some ⟨id, identified id item⟩ := by
  induction h with
  | nil => exact absurd hid List.not_mem_nil
  | @stored _ _ _ _ item items id' ids _ _ _ _ _ hlookup hrest ih =>
    by_cases hlater : some id ∈ ids
    · obtain ⟨i, item, hitem, hi, hdocument⟩ := ih hlater
      exact ⟨i + 1, item, hitem, hi, hdocument⟩
    · obtain rfl : id = id' := Option.some.inj ((List.mem_cons.mp hid).resolve_right hlater)
      refine ⟨0, item, rfl, rfl, ?_⟩
      rw [StorageEngine.document, hrest.lookup_of_not_mem hlater, hlookup, if_pos rfl,
        Option.bind_some, Document.from_msgpack_to_msgpack]
      rfl
  | passed _ _ _ _ ih =>
    obtain ⟨i, item, hitem, hi, hdocument⟩ :=
      ih ((List.mem_cons.mp hid).resolve_left (by simp))
    exact ⟨i + 1, item, hitem, hi, hdocument⟩

end Imported

/-! ### One bad item -/

/-- **Every item is processed**, where every call goes through: the loop comes to its end, the
counts are those of the items that are stored and of the others, an item is stored exactly if it
is an object a create could store on its own, and then it is there under its id, or another one
that is stored under the same. -/
def ProcessesAll (codec : Codec) (c : Collection) (e : StorageEngine) (items : List Json) :
    Prop :=
  ∀ entropies, ∃ summary w',
    (c.importLoop codec entropies 0 0 items).run (.calm e) = (.ret summary, w') ∧
    summary.ids.length = items.length ∧
    summary.successCount = summary.ids.countP Option.isSome ∧
    summary.failureCount = summary.ids.countP Option.isNone ∧
    summary.successCount + summary.failureCount = items.length ∧
    (∀ (i : ℕ) (item : Json), items[i]? = some item → ((∃ id, summary.ids[i]? = some (some id)) ↔
      item.isObject = true ∧ c.name_ ∈ e.columnFamilies_ ∧ WellFormed codec c e item)) ∧
    (∀ id, some id ∈ summary.ids → ∃ (i : ℕ) (item : Json), items[i]? = some item ∧
      summary.ids[i]? = some (some id) ∧
      w'.engine.document codec c.name_ id = some ⟨id, identified id item⟩) ∧
    ∀ (text : JsonText) filePath contents, text.read contents = .ok (.array items) →
      (c.importFromJsonFile text codec entropies filePath (some contents)).run (.calm e) =
        (.ret .OK, w')

/-- An object whose `_id` is a string, or that has none, names an id. -/
theorem exists_importId (h : ∀ id, item.find? idField = some id → ∃ s, id = .string s)
    (successCount failureCount : ℕ) :
    ∃ docId, importId successCount failureCount item = .ok docId := by
  rw [importId]
  rcases hid : item.find? idField with _ | id
  · exact ⟨_, rfl⟩
  · obtain ⟨s, rfl⟩ := h id hid
    exact ⟨s, rfl⟩

/-- An object that is well formed is created, where every call goes through. -/
theorem createDocument_item (entropies : Stream' Entropy) (successCount failureCount : ℕ)
    (hobject : item.isObject = true) (hformed : WellFormed codec c e item) :
    ∃ docId status doc e₁, importId successCount failureCount item = .ok docId ∧
      (c.createDocument codec entropies.head ⟨docId, item⟩).run (.calm e) =
        (.ret (status, doc), .calm e₁) ∧ (status.ok = true ↔ c.name_ ∈ e.columnFamilies_) ∧
      SameFamilies c e e₁ := by
  obtain ⟨hstring, hkeyed⟩ := hformed
  obtain ⟨docId, hid⟩ := exists_importId hstring successCount failureCount
  have hdoc := withId_assignId_of_object ⟨docId, item⟩ entropies.head (Or.inl hobject)
  obtain ⟨status, w₁, hrun, hok⟩ :=
    createDocument_of_keyed hdoc ((keyed_identified (c := c) (e := e) hobject).mpr hkeyed)
  have hcalm := Engine.run_calm_snd (c.createDocument codec entropies.head ⟨docId, item⟩) e
  have hsame := @sameFamilies_createDocument codec c entropies.head ⟨docId, item⟩ (.calm e)
  rw [hrun] at hcalm hsame
  exact ⟨docId, status, _, w₁.engine, hid, hrun.trans (Prod.ext rfl hcalm), hok, hsame⟩

/-- One that is not ends the loop. -/
theorem run_importLoop_cons_of_bad (entropies : Stream' Entropy) (successCount failureCount : ℕ)
    (items : List Json) (hobject : item.isObject = true) (hformed : ¬WellFormed codec c e item) :
    ∃ exn w', (c.importLoop codec entropies successCount failureCount (item :: items)).run
      (.calm e) = (.raise exn, w') := by
  rw [importLoop, if_pos hobject, Engine.run, Prog.run_ofExcept_bind]
  rcases hid : importId successCount failureCount item with exn | docId
  · exact ⟨exn, _, rfl⟩
  · -- the `_id` is a string, so a value has no key
    have hkeyed : ¬Keyed codec c e item := fun hkeyed =>
      hformed ⟨fun id hfind => ⟨docId, find?_of_importId hid hfind⟩, hkeyed⟩
    have hdoc := withId_assignId_of_object ⟨docId, item⟩ entropies.head (Or.inl hobject)
    obtain ⟨exn, w', hrun⟩ := createDocument_of_not_keyed hdoc
      fun h => hkeyed ((keyed_identified hobject).mp h)
    rw [Engine.run] at hrun
    simp only
    rw [Prog.run_bind, hrun]
    exact ⟨exn, w', rfl⟩

/-- An item that is no object, or is a well formed one, is passed where every call goes through. -/
theorem run_importLoop_cons_calm (entropies : Stream' Entropy) (successCount failureCount : ℕ)
    (items : List Json) (hgood : item.isObject = true → WellFormed codec c e item) :
    ∃ x n m e₁, (c.importLoop codec entropies successCount failureCount (item :: items)).run
        (.calm e) = (ImportSummary.after x <$> c.importLoop codec entropies.tail n m items :
          Engine ImportSummary).run (.calm e₁) ∧ SameFamilies c e e₁ ∧
      (item.isObject = true → c.name_ ∈ e.columnFamilies_ → ∃ id, x = some id) := by
  by_cases hobject : item.isObject = true
  · obtain ⟨docId, status, doc, e₁, hid, hcreate, hok, hsame⟩ :=
      createDocument_item entropies successCount failureCount hobject (hgood hobject)
    have hcons := run_importLoop_cons items hobject hid hcreate
    by_cases hstatus : status.ok = true
    · rw [if_pos hstatus] at hcons
      exact ⟨_, _, _, e₁, hcons, hsame, fun _ _ => ⟨_, rfl⟩⟩
    · rw [if_neg hstatus] at hcons
      exact ⟨_, _, _, e₁, hcons, hsame, fun _ hfamily => absurd (hok.mpr hfamily) hstatus⟩
  · exact ⟨_, _, _, e, run_importLoop_cons_of_not hobject, .refl c e, fun h => absurd h hobject⟩

/-- **Where every call goes through and the objects are well formed the loop comes to its end**, and
has stored them all. -/
theorem importLoop_calm_of_wellFormed (codec : Codec) (entropies : Stream' Entropy)
    (successCount failureCount : ℕ) {items : List Json}
    (h : ∀ item ∈ items, item.isObject = true → WellFormed codec c e item) : ∃ summary w',
      (c.importLoop codec entropies successCount failureCount items).run (.calm e) =
        (.ret summary, w') ∧ ∀ (i : ℕ) (item : Json), items[i]? = some item →
          item.isObject = true → c.name_ ∈ e.columnFamilies_ →
            ∃ id, summary.ids[i]? = some (some id) := by
  induction items generalizing entropies successCount failureCount e with
  | nil => exact ⟨_, _, rfl, fun i item hi => by cases hi⟩
  | cons item items ih =>
    obtain ⟨hgood, hrest⟩ := List.forall_mem_cons.mp h
    obtain ⟨x, n, m, e₁, hcons, hsame, hx⟩ :=
      run_importLoop_cons_calm entropies successCount failureCount items hgood
    rw [hcons]
    obtain ⟨summary, w', hrun, hstored⟩ := ih entropies.tail n m fun y hy hobject =>
      hsame.wellFormed_iff.mpr (hrest y hy hobject)
    refine ⟨_, w', Engine.run_map_of_ret hrun, fun i y hi hobject hfamily => ?_⟩
    cases i with
    | zero =>
      obtain rfl := Option.some.inj hi
      obtain ⟨id, rfl⟩ := hx hobject hfamily
      exact ⟨id, rfl⟩
    | succ i => exact hstored i y hi hobject (hsame.1.mpr hfamily)

/-- **And where one of them is not, something is thrown.** -/
theorem importLoop_calm_of_bad (codec : Codec) (entropies : Stream' Entropy)
    (successCount failureCount : ℕ) {items : List Json}
    (h : ∃ item ∈ items, Json.isObject item = true ∧ ¬WellFormed codec c e item) : ∃ exn w',
      (c.importLoop codec entropies successCount failureCount items).run (.calm e) =
        (.raise exn, w') := by
  induction items generalizing entropies successCount failureCount e with
  | nil =>
    obtain ⟨item, hitem, -⟩ := h
    exact absurd hitem List.not_mem_nil
  | cons item items ih =>
    obtain ⟨y, hy, hobject, hbad⟩ := h
    by_cases hgood : item.isObject = true → WellFormed codec c e item
    · -- the bad one is a later one
      have hlater : y ∈ items :=
        (List.mem_cons.mp hy).resolve_left fun h => hbad (h ▸ hgood (h ▸ hobject))
      obtain ⟨x, n, m, e₁, hcons, hsame, -⟩ :=
        run_importLoop_cons_calm entropies successCount failureCount items hgood
      obtain ⟨exn, w', hrun⟩ := ih entropies.tail n m
        ⟨y, hlater, hobject, fun h => hbad (hsame.wellFormed_iff.mp h)⟩
      rw [hcons]
      exact ⟨exn, w', Engine.run_map_of_raise hrun⟩
    · obtain ⟨hobject', hformed⟩ := Classical.not_imp.mp hgood
      exact run_importLoop_cons_of_bad entropies successCount failureCount items hobject' hformed

/-- **When one bad item does not stop an import**: where no object is bad. -/
theorem processesAll_iff (codec : Codec) (c : Collection) (e : StorageEngine)
    (items : List Json) : ProcessesAll codec c e items ↔
      ∀ item ∈ items, item.isObject = true → WellFormed codec c e item := by
  constructor
  · intro h item hitem hobject
    obtain ⟨summary, w', hrun, -⟩ := h (Stream'.const ⟨0, fun _ => 0⟩)
    by_contra hbad
    obtain ⟨exn, w'', hraise⟩ := importLoop_calm_of_bad codec (Stream'.const ⟨0, fun _ => 0⟩) 0 0
      ⟨item, hitem, hobject, hbad⟩
    rw [hrun] at hraise
    cases (Prod.mk.inj hraise).1
  · intro h entropies
    obtain ⟨summary, w', hrun, hstored⟩ :=
      importLoop_calm_of_wellFormed codec entropies 0 0 h
    obtain ⟨himported, hsuccess, hfailure⟩ := imported_of_run hrun
    rw [Nat.zero_add] at hsuccess hfailure
    have hlength := himported.length_eq
    refine ⟨summary, w', hrun, hlength, hsuccess, hfailure, ?_, fun i item hitem => ⟨?_, ?_⟩,
      fun id hid => himported.exists_document hid, fun text filePath contents hread =>
        run_importFromJsonFile_of_array codec c text entropies filePath hread hrun⟩
    · rw [hsuccess, hfailure, ← hlength, List.length_eq_countP_add_countP Option.isSome]
      congr 2
      funext id
      cases id <;> rfl
    · rintro ⟨id, hid⟩
      obtain ⟨item', hitem', hobject, hfamily, hformed, -⟩ := himported.of_stored hid
      obtain rfl := Option.some.inj (hitem.symm.trans hitem')
      exact ⟨hobject, hfamily, hformed⟩
    · rintro ⟨hobject, hfamily, -⟩
      exact hstored i item hitem hobject hfamily

/-- **An `_id` that is a number ends the import before the next item.** -/
theorem not_processesAll_number :
    ¬ProcessesAll .standard letterC
      (Operation.afterAll .standard .fresh [.createCollection letterC.name_])
      [.object [(idField, .integer 5)], .object [(idField, .string (Bytes.ofText "a"))]] := by
  intro h
  obtain ⟨summary, w', hrun, -⟩ := h (Stream'.const ⟨0, fun _ => 0⟩)
  have hbad : ¬WellFormed .standard letterC
      (Operation.afterAll .standard .fresh [.createCollection letterC.name_])
      (.object [(idField, .integer 5)]) := by
    intro hformed
    obtain ⟨s, hs⟩ := hformed.1 (.integer 5) rfl
    cases hs
  obtain ⟨exn, w'', hraise⟩ := importLoop_calm_of_bad .standard (Stream'.const ⟨0, fun _ => 0⟩)
    0 0 ⟨_, List.mem_cons_self, rfl, hbad⟩
  rw [hrun] at hraise
  cases (Prod.mk.inj hraise).1

/-! ### Items without an id -/

/-- **Items without an id are stored under ids of their own**: after however many items, an item
without an `_id` that was stored has an id that was not in use before the import, that no other
item was stored under, and that no other item of the file names; and a document that was there
before is still there, unless an item that has an `_id` was stored under its id. -/
def CountedApart (codec : Codec) (c : Collection) (e : StorageEngine) (items : List Json) :
    Prop :=
  ∀ entropies refusals k summary w',
    (c.importLoop codec entropies 0 0 (items.take k)).run (.refusing e refusals) =
      (.ret summary, w') →
    (∀ (i : ℕ) (id : Bytes) (item : Json), summary.ids[i]? = some (some id) →
      items[i]? = some item → item.find? idField = none →
        e.lookup c.name_ id = none ∧ (∀ j, j ≠ i → summary.ids[j]? ≠ some (some id)) ∧
        ∀ (j : ℕ) (other : Json), j ≠ i → items[j]? = some other →
          other.find? idField ≠ some (.string id)) ∧
    ∀ id serialized, e.lookup c.name_ id = some serialized →
      w'.engine.lookup c.name_ id = some serialized ∨ ∃ (i : ℕ) (item : Json),
        items[i]? = some item ∧ (item.find? idField).isSome = true ∧
          summary.ids[i]? = some (some id)

/-- **The ids that are counted out are free**: for an item without an `_id` that a create could
store, where the items before it can be passed. -/
def CountedFree (codec : Codec) (c : Collection) (e : StorageEngine) (items : List Json) : Prop :=
  c.name_ ∈ e.columnFamilies_ → ∀ (i : ℕ) (item : Json), items[i]? = some item →
    item.isObject = true → item.find? idField = none → Keyed codec c e item →
    (∀ (j : ℕ) (other : Json), j < i → items[j]? = some other → Passes codec c e other) →
      e.lookup c.name_ (countedId i) = none ∧ ∀ (j : ℕ) (other : Json), j ≠ i →
        items[j]? = some other → other.find? idField ≠ some (.string (countedId i))

/-- The first step of a create, where the first value has a key. -/
theorem storeSteps_of_firstKeyed (codec : Codec) {doc : Document}
    (hfirst : FirstKeyed codec c e doc.data_) (hfamily : c.name_ ∈ e.columnFamilies_) : ∃ x rest,
      DocumentCall.storeSteps codec c doc (e.getIndexNames c.name_) = .ok x :: rest ∧
        x.family ∈ e.columnFamilies_ := by
  rw [DocumentCall.storeSteps, DocumentCall.entrySteps]
  rcases hfields : (e.getIndexNames c.name_).filter fun f => hasIndexField doc.data_ f with
    _ | ⟨f, rest⟩
  · exact ⟨_, _, rfl, hfamily⟩
  · have hmem : f ∈ (e.getIndexNames c.name_).filter fun f => hasIndexField doc.data_ f :=
      hfields ▸ List.mem_cons_self
    obtain ⟨hlisted, hfield⟩ := List.mem_filter.mp hmem
    obtain ⟨value, hvalue⟩ := Option.isSome_iff_exists.mp hfield
    have hfind : (e.getIndexNames c.name_).find? (fun f => hasIndexField doc.data_ f) = some f := by
      rw [← List.head?_filter, hfields, List.head?_cons]
    obtain ⟨k, hkey⟩ := hfirst f value hfind hvalue
    have hentry : entryKey codec doc f = .ok (k ++ separator ++ doc.id_) := by
      rw [entryKey, hvalue, Option.getD_some, indexKey_eq_ok_iff]
      exact ⟨k, hkey, rfl⟩
    rw [List.map_cons, hentry]
    exact ⟨_, _, rfl, (StorageEngine.mem_getIndexNames.mp hlisted).1⟩

/-- A create whose first write is refused does nothing. -/
theorem createDocument_refused (codec : Codec) {entropy : Entropy} {doc doc' : Document}
    (hdoc : (assignId entropy doc).withId = .ok doc') (hfirst : FirstKeyed codec c e doc'.data_)
    (hfamily : c.name_ ∈ e.columnFamilies_) (r : Stream' (Option Bytes)) :
    ∃ status, (c.createDocument codec entropy doc).run
      (.refusing e (Stream'.cons none (Stream'.cons (some []) r))) =
        (.ret (status, doc'), .refusing e r) ∧ status.ok = false := by
  obtain ⟨x, rest, hsteps, hx⟩ := storeSteps_of_firstKeyed codec hfirst hfamily
  have hnot : (e.tryWrite (some []) x).1.ok = false :=
    Bool.eq_false_iff.mpr fun h => absurd (StorageEngine.tryWrite_ok_iff.mp h).1 (by simp)
  refine ⟨(e.tryWrite (some []) x).1, ?_, hnot⟩
  have hstop : (World.refusing e (Stream'.cons none (Stream'.cons (some []) r))).fates.head ≠
      .stop := show Fate.ok ≠ .stop by simp
  have hwrites : (Engine.writes (.ok x :: rest)).run (.refusing e (Stream'.cons (some []) r)) =
      (.ret (e.tryWrite (some []) x).1, .refusing e r) := by
    rw [Engine.run_writes_cons]
    change (if (e.tryWrite (some []) x).1.ok then _ else
      (_, World.refusing (e.tryWrite (some []) x).2 r) : Outcome Exn Status × World) = _
    rw [hnot, StorageEngine.tryWrite_engine, if_neg (by simp)]
    rfl
  rw [run_createDocument hdoc, if_neg hstop]
  change (((Engine.writes (DocumentCall.storeSteps codec c doc' (e.getIndexNames c.name_))).run
    (.refusing e (Stream'.cons (some []) r))).1.map _, ((Engine.writes (DocumentCall.storeSteps
      codec c doc' (e.getIndexNames c.name_))).run (.refusing e (Stream'.cons (some []) r))).2) = _
  rw [hsteps, hwrites]
  rfl

/-- An item that can be passed is passed where its first write is refused. -/
theorem run_importLoop_cons_refused (hpasses : Passes codec c e item)
    (hfamily : c.name_ ∈ e.columnFamilies_) (r' : Stream' (Option Bytes)) :
    ∃ r, ∀ (entropies : Stream' Entropy) (n m : ℕ) (items : List Json),
      (c.importLoop codec entropies n m (item :: items)).run (.refusing e r) =
        (ImportSummary.after none <$> c.importLoop codec entropies.tail n (m + 1) items :
          Engine ImportSummary).run (.refusing e r') := by
  by_cases hobject : item.isObject = true
  · refine ⟨Stream'.cons none (Stream'.cons (some []) r'), fun entropies n m items => ?_⟩
    obtain ⟨hstring, hfirst⟩ := hpasses hobject
    obtain ⟨docId, hid⟩ := exists_importId hstring n m
    have hdoc := withId_assignId_of_object ⟨docId, item⟩ entropies.head (Or.inl hobject)
    obtain ⟨status, hcreate, hnot⟩ := createDocument_refused codec hdoc (hfirst _)
      hfamily r'
    rw [run_importLoop_cons items hobject hid hcreate, hnot]
    rfl
  · exact ⟨r', fun entropies n m items => run_importLoop_cons_of_not hobject⟩

/-- **Items that can be passed are passed** where their first writes are refused, and what comes
after them goes as it would at their place. -/
theorem run_importLoop_refused (codec : Codec) {before : List Json}
    (hpasses : ∀ item ∈ before, Passes codec c e item) (hfamily : c.name_ ∈ e.columnFamilies_)
    (r' : Stream' (Option Bytes)) :
    ∃ r, ∀ (entropies : Stream' Entropy) (n m : ℕ) (items : List Json) (summary : ImportSummary)
      (w' : World),
      (c.importLoop codec (entropies.drop before.length) n (m + before.length) items).run
        (.refusing e r') = (.ret summary, w') →
      (c.importLoop codec entropies n m (before ++ items)).run (.refusing e r) =
        (.ret { summary with ids := List.replicate before.length none ++ summary.ids }, w') := by
  induction before with
  | nil => exact ⟨r', fun entropies n m items summary w' h => h⟩
  | cons item before ih =>
    obtain ⟨r₁, hrest⟩ := ih fun x hx => hpasses x (List.mem_cons_of_mem _ hx)
    obtain ⟨r, hcons⟩ := run_importLoop_cons_refused (hpasses item List.mem_cons_self) hfamily r₁
    refine ⟨r, fun entropies n m items summary w' h => ?_⟩
    have hplace : m + (item :: before).length = m + 1 + before.length := by
      rw [List.length_cons]
      omega
    rw [hplace] at h
    rw [List.cons_append, hcons]
    exact Engine.run_map_of_ret (hrest entropies.tail n (m + 1) items summary w' h)

/-- An item without an id that a create could store is stored, where the calls for the items
before it are refused and the others go through. -/
theorem exists_run_stored (codec : Codec) (items : List Json) (i : ℕ)
    (hitem : items[i]? = some item) (hobject : item.isObject = true)
    (hnone : item.find? idField = none) (hkeyed : Keyed codec c e item)
    (hpasses : ∀ (j : ℕ) (other : Json), j < i → items[j]? = some other → Passes codec c e other)
    (hfamily : c.name_ ∈ e.columnFamilies_) (entropies : Stream' Entropy) :
    ∃ refusals summary w', (c.importLoop codec entropies 0 0 (items.take (i + 1))).run
      (.refusing e refusals) = (.ret summary, w') ∧ summary.ids[i]? = some (some (countedId i)) := by
  have hlength : (items.take i).length = i :=
    List.length_take_of_le (List.getElem?_eq_some_iff.mp hitem).1.le
  have hbefore : ∀ other ∈ items.take i, Passes codec c e other := by
    intro other hother
    obtain ⟨j, hj⟩ := List.mem_iff_getElem?.mp hother
    have hlt : j < i := hlength ▸ (List.getElem?_eq_some_iff.mp hj).1
    exact hpasses j other hlt (by rwa [List.getElem?_take_of_lt hlt] at hj)
  have hformed : WellFormed codec c e item := by
    refine ⟨fun id hid => ?_, hkeyed⟩
    rw [hnone] at hid
    cases hid
  obtain ⟨r, hrun⟩ := run_importLoop_refused codec hbefore hfamily (Stream'.const none)
  have hgood : ∀ x ∈ [item], x.isObject = true → WellFormed codec c e x :=
    fun x hx _ => List.mem_singleton.mp hx ▸ hformed
  -- the items before it are refused, and it is not
  obtain ⟨summary, w', hlast, hstored⟩ := importLoop_calm_of_wellFormed codec
    (entropies.drop (items.take i).length) 0 (0 + (items.take i).length) hgood
  obtain ⟨id, hid⟩ := hstored 0 item rfl hobject hfamily
  have hall := hrun entropies 0 0 [item] summary w' hlast
  have htake : items.take (i + 1) = items.take i ++ [item] := by
    rw [List.take_add_one, hitem, Option.toList_some]
  rw [← htake] at hall
  have hi : (List.replicate (items.take i).length none ++ summary.ids)[i]? = some (some id) := by
    rw [List.getElem?_append_right (by rw [List.length_replicate, hlength]), List.length_replicate,
      hlength, Nat.sub_self, hid]
  refine ⟨r, _, w', hall, hi.trans ?_⟩
  -- the id is the one that is counted out
  obtain ⟨item', hitem', -, -, -, hunder⟩ := (imported_of_run hall).1.of_stored hi
  rw [List.getElem?_take_of_succ, hitem] at hitem'
  obtain rfl := Option.some.inj hitem'
  rw [Nat.zero_add] at hunder
  rcases hunder with ⟨-, rfl⟩ | ⟨docId, entropy, hfind, -⟩
  · rfl
  · rw [hnone] at hfind
    cases hfind

/-- **Where items without an id are stored under ids of their own**: where the ids that are counted
out are free. -/
theorem countedApart_iff (codec : Codec) (c : Collection) (e : StorageEngine)
    (items : List Json) : CountedApart codec c e items ↔ CountedFree codec c e items := by
  constructor
  · intro h hfamily i item hitem hobject hnone hkeyed hpasses
    obtain ⟨refusals, summary, w', hrun, hi⟩ := exists_run_stored codec items i hitem hobject
      hnone hkeyed hpasses hfamily (Stream'.const ⟨0, fun _ => 0⟩)
    obtain ⟨hfree, -, hnames⟩ := (h _ refusals (i + 1) summary w' hrun).1 i _ item hi hitem hnone
    exact ⟨hfree, hnames⟩
  · intro h entropies refusals k summary w' hrun
    obtain ⟨himported, -⟩ := imported_of_run hrun
    have hstored {i : ℕ} {id : Bytes} (hi : summary.ids[i]? = some (some id)) :
        ∃ item, items[i]? = some item ∧ (∀ j other, j < i → items[j]? = some other →
          Passes codec c e other) ∧ item.isObject = true ∧ c.name_ ∈ e.columnFamilies_ ∧
            WellFormed codec c e item ∧ StoredUnder i item id := by
      obtain ⟨item, hitem, hobject, hfamily, hformed, hunder⟩ := himported.of_stored hi
      have hlt : i < k := by
        by_contra hk
        rw [List.getElem?_take, if_neg hk] at hitem
        cases hitem
      rw [List.getElem?_take_of_lt hlt] at hitem
      rw [Nat.zero_add] at hunder
      refine ⟨item, hitem, fun j other hj hother => himported.passes ?_, hobject, hfamily, hformed,
        hunder⟩
      exact List.mem_of_getElem? ((List.getElem?_take_of_lt (hj.trans hlt)).trans hother)
    -- an item without an id is stored under the one that is counted for it
    have hcounted {i : ℕ} {id : Bytes} {item : Json} (hi : summary.ids[i]? = some (some id))
        (hitem : items[i]? = some item) (hnone : item.find? idField = none) : id = countedId i ∧
          e.lookup c.name_ (countedId i) = none ∧ ∀ (j : ℕ) (other : Json), j ≠ i →
            items[j]? = some other → other.find? idField ≠ some (.string (countedId i)) := by
      obtain ⟨item', hitem', hpasses, hobject, hfamily, hformed, hunder⟩ := hstored hi
      obtain rfl := Option.some.inj (hitem.symm.trans hitem')
      refine ⟨?_, h hfamily i item hitem hobject hnone hformed.2 hpasses⟩
      rcases hunder with ⟨-, rfl⟩ | ⟨docId, entropy, hfind, -⟩
      · rfl
      · rw [hnone] at hfind
        cases hfind
    refine ⟨fun i id item hi hitem hnone => ?_, fun id serialized hid => ?_⟩
    · obtain ⟨rfl, hfree, hnames⟩ := hcounted hi hitem hnone
      refine ⟨hfree, fun j hj hsame => ?_, hnames⟩
      obtain ⟨other, hother, -, -, -, -, hunder⟩ := hstored hsame
      rcases hunder with ⟨-, heq⟩ | ⟨docId, entropy, hfind, heq⟩
      · exact hj (countedId_injective heq).symm
      · rw [DocumentMap.target] at heq
        split_ifs at heq
        · exact countedId_ne_generateId i entropy heq
        · exact hnames j other hj hother (heq ▸ hfind)
    · -- what was stored before is replaced by an item that has its id, or stays
      by_cases hmem : some id ∈ summary.ids
      · obtain ⟨i, hi⟩ := List.mem_iff_getElem?.mp hmem
        obtain ⟨item, hitem, -⟩ := hstored hi
        refine Or.inr ⟨i, item, hitem, ?_, hi⟩
        rcases hnone : item.find? idField with _ | value
        · obtain ⟨rfl, hfree, -⟩ := hcounted hi hitem hnone
          rw [hfree] at hid
          cases hid
        · rfl
      · exact Or.inl ((himported.lookup_of_not_mem hmem).trans hid)

/-- A collection with a document under the first id that is counted out, as an import leaves it. -/
def counted : StorageEngine :=
  Operation.afterAll .standard .fresh [.createCollection letterC.name_,
    .document letterC (.create ⟨0, fun _ => 0⟩
      ⟨countedId 0, .object [(Bytes.ofText "f", .integer 1)]⟩)]

/-- **The next import writes over it.** -/
theorem not_countedApart_counted :
    ¬CountedApart .standard letterC counted [.object [(Bytes.ofText "f", .integer 2)]] := by
  intro h
  have hindexes : counted.getIndexNames letterC.name_ = [] := by decide +kernel
  have hkeyed : Keyed .standard letterC counted (.object [(Bytes.ofText "f", .integer 2)]) :=
    fun f hf => absurd (hindexes ▸ hf) List.not_mem_nil
  obtain ⟨refusals, summary, w', hrun, hi⟩ := exists_run_stored .standard
    [.object [(Bytes.ofText "f", .integer 2)]] 0 rfl rfl rfl hkeyed
    (fun j _ hj => absurd hj (Nat.not_lt_zero j)) (by decide +kernel)
    (Stream'.const ⟨0, fun _ => 0⟩)
  obtain ⟨hfree, -⟩ := (h _ refusals 1 summary w' hrun).1 0 _ _ hi rfl rfl
  have hused : counted.lookup letterC.name_ (countedId 0) ≠ none := by decide +kernel
  exact hused hfree

end Items

end Collection

end AnuDB
