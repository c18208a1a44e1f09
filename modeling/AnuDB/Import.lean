import AnuDB.DocumentMap
import AnuDB.JsonText

/-!
# Imports

`importFromJsonFile` reads a file, and creates a document for every object in the array it
holds. The id is the object's `_id`, and where it has none it is counted out. An item that
cannot be stored is passed over, and the import goes on.

An import is a run of creates (`AnuDB.Collection.run_importFromJsonFile`), each of an object
under the id the object names, so what is known of documents that are created is known of
documents that are imported.
-/

namespace AnuDB

open Effect

/-- What the `catch` of an import makes of an exception. -/
def importError : Exn → Except Exn Status
  | .exception what => .ok (.internalError (Bytes.ofText "JSON import error: " ++ what))
  | .undefined u => .error (.undefined u)

/-- The id an item is imported under. -/
def importId (successCount failureCount : ℕ) (item : Json) : Except Exn Bytes :=
  match item.find? idField with
  | some id => id.getString
  | none => .ok (Bytes.ofText "doc_" ++ Bytes.decimal (successCount + failureCount))

namespace Collection

variable (text : JsonText) (codec : Codec) (c : Collection)

/-- The loop of an import over the items of the array. -/
def importItems (entropies : Stream' Entropy) (successCount failureCount : ℕ) :
    List Json → Engine Unit
  | [] => pure ()
  | item :: items =>
    if item.isObject then do
      let docId ← Prog.ofExcept (importId successCount failureCount item)
      let (status, _) ← c.createDocument codec entropies.head ⟨docId, item⟩
      if status.ok then importItems entropies.tail (successCount + 1) failureCount items
      else importItems entropies.tail successCount (failureCount + 1) items
    else importItems entropies.tail successCount (failureCount + 1) items

/-- What an import does inside its `try`, once the file is open. -/
def importContents (entropies : Stream' Entropy) (filePath contents : Bytes) : Engine Status := do
  let jsonData ← Prog.ofExcept ((text.read contents).mapError Exn.exception)
  match jsonData with
  | .array items =>
    c.importItems codec entropies 0 0 items
    return .OK
  | _ =>
    return .notSupported (Bytes.ofText "File must contain a JSON array of objects: " ++ filePath)

/-- `Collection::importFromJsonFile`: `file` is what the file holds, if it can be opened. -/
def importFromJsonFile (entropies : Stream' Entropy) (filePath : Bytes) (file : Option Bytes) :
    Engine Status :=
  match file with
  | none => return .ioError (Bytes.ofText "Could not open file: " ++ filePath)
  | some contents =>
    Prog.tryCatch (c.importContents text codec entropies filePath contents) fun e =>
      Prog.ofExcept (importError e)

end Collection

/-! ### An import is a run of creates -/

/-- The objects a file holds. -/
def importedItems (text : JsonText) (file : Option Bytes) : List Json :=
  match file.map text.read with
  | some (.ok (.array items)) => items.filter Json.isObject
  | _ => []

/-- **The create of an item**, under the id the item names. -/
def IsImport (entropies : Stream' Entropy) (item : Json) (call : CollectionCall) : Prop :=
  ∃ n docId, call = .document (.create (entropies.get n) ⟨docId, item⟩) ∧
    ∀ id, item.find? idField = some id → id = .string docId

theorem IsImport.of_tail {entropies : Stream' Entropy} {item : Json} {call : CollectionCall}
    (h : IsImport entropies.tail item call) : IsImport entropies item call := by
  obtain ⟨n, docId, hcall, hid⟩ := h
  exact ⟨n + 1, docId, hcall, hid⟩

theorem find?_of_importId {successCount failureCount : ℕ} {item : Json} {docId : Bytes}
    (h : importId successCount failureCount item = .ok docId) {id : Json}
    (hid : item.find? idField = some id) : id = .string docId := by
  rw [importId, hid] at h
  cases id with
  | string s =>
    obtain rfl : s = docId := Except.ok.inj h
    rfl
  | _ => cases h

namespace Collection

variable (text : JsonText) (codec : Codec) (c : Collection) (w : World)

/-- A create is a step of the collection, whatever comes of it. -/
theorem step_createDocument (entropy : Entropy) (doc : Document) :
    CollectionStep codec c w.engine (.document (.create entropy doc),
      ((DocumentCall.create entropy doc).perform codec c |>.run w).1)
      ((c.createDocument codec entropy doc).run w).2.engine := by
  refine ⟨w.fates, rfl, ?_⟩
  change ((Prod.fst <$> c.createDocument codec entropy doc : Engine Status).run w).2.engine = _
  rw [Engine.run, Prog.run_map]

theorem run_importItems (entropies : Stream' Entropy) (successCount failureCount : ℕ)
    (items : List Json) :
    ∃ history, History.Run (CollectionStep codec c) w.engine history
        ((c.importItems codec entropies successCount failureCount items).run w).2.engine ∧
      ∀ x ∈ history, ∃ item ∈ items.filter Json.isObject, IsImport entropies item x.1 := by
  induction items generalizing entropies successCount failureCount w with
  | nil => exact ⟨[], .nil, fun x hx => by cases hx⟩
  | cons item items ih =>
    have hlater {x : CollectionCall}
        (h : ∃ i ∈ items.filter Json.isObject, IsImport entropies.tail i x) :
        ∃ i ∈ (item :: items).filter Json.isObject, IsImport entropies i x := by
      obtain ⟨i, hi, himport⟩ := h
      rw [List.mem_filter] at hi
      exact ⟨i, List.mem_filter.mpr ⟨List.mem_cons_of_mem _ hi.1, hi.2⟩, himport.of_tail⟩
    rw [importItems]
    split_ifs with hobject
    · rw [Engine.run, Prog.run_ofExcept_bind]
      rcases hid : importId successCount failureCount item with exn | docId
      · exact ⟨[], .nil, fun x hx => by cases hx⟩
      · -- the create of the item comes first, and then the rest, if there is any
        simp only
        have hstep := step_createDocument codec c w entropies.head
          ⟨docId, item⟩
        have himport : IsImport entropies item (.document (.create entropies.head ⟨docId, item⟩)) :=
          ⟨0, docId, rfl, fun id => find?_of_importId hid⟩
        have hitem : item ∈ (item :: items).filter Json.isObject :=
          List.mem_filter.mpr ⟨List.mem_cons_self, hobject⟩
        rw [Prog.run_bind]
        rcases hrun : Prog.run World.handle (c.createDocument codec entropies.head ⟨docId, item⟩) w
          with ⟨⟨status, doc⟩ | exn | _, w'⟩ <;> rw [Engine.run, Engine.run, hrun] at hstep
        · have hrest (n m : ℕ) : ∃ history, History.Run (CollectionStep codec c) w.engine history
              ((c.importItems codec entropies.tail n m items).run w').2.engine ∧
              ∀ x ∈ history, ∃ i ∈ (item :: items).filter Json.isObject,
                IsImport entropies i x.1 := by
            obtain ⟨history, hhistory, hcreates⟩ := ih w' entropies.tail n m
            refine ⟨_ :: history, (History.Run.nil.snoc hstep).append hhistory, ?_⟩
            rintro x (_ | ⟨_, hx⟩)
            · exact ⟨item, hitem, himport⟩
            · exact hlater (hcreates x hx)
          by_cases hok : status.ok = true
          · simp only [hok, if_true]
            exact hrest _ _
          · simp only [hok]
            exact hrest _ _
        · refine ⟨[_], History.Run.nil.snoc hstep, fun x hx => ?_⟩
          rw [List.mem_singleton.mp hx]
          exact ⟨item, hitem, himport⟩
        · refine ⟨[_], History.Run.nil.snoc hstep, fun x hx => ?_⟩
          rw [List.mem_singleton.mp hx]
          exact ⟨item, hitem, himport⟩
    · obtain ⟨history, hhistory, hcreates⟩ := ih w entropies.tail successCount
        (failureCount + 1)
      exact ⟨history, hhistory, fun x hx => hlater (hcreates x hx)⟩

/-- **An import is a run of creates**, one for each object at most. -/
theorem run_importFromJsonFile (entropies : Stream' Entropy) (filePath : Bytes)
    (file : Option Bytes) :
    ∃ history, History.Run (CollectionStep codec c) w.engine history
        ((c.importFromJsonFile text codec entropies filePath file).run w).2.engine ∧
      ∀ x ∈ history, ∃ item ∈ importedItems text file, IsImport entropies item x.1 := by
  cases file with
  | none => exact ⟨[], .nil, fun x hx => by cases hx⟩
  | some contents =>
    rw [importFromJsonFile, Engine.run, Prog.run_tryCatch, importContents,
      Prog.run_ofExcept_bind, importedItems]
    rcases hread : text.read contents with what | jsonData
    · exact ⟨[], .nil, fun x hx => by cases hx⟩
    · simp only [Except.mapError, Option.map_some, hread]
      cases jsonData with
      | array items =>
        obtain ⟨history, hhistory, hcreates⟩ := run_importItems codec c w entropies
          0 0 items
        refine ⟨history, ?_, hcreates⟩
        simp only
        rw [Prog.run_bind]
        rcases hrun : Prog.run World.handle (c.importItems codec entropies 0 0 items) w with
          ⟨_ | exn | _, w'⟩ <;> rw [Engine.run, hrun] at hhistory
        · exact hhistory
        · cases exn <;> exact hhistory
        · exact hhistory
      | _ => exact ⟨[], .nil, fun x hx => by cases hx⟩

end Collection

end AnuDB
