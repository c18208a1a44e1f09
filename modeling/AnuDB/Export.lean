import AnuDB.Identity
import AnuDB.Scalars

/-!
# Exports

`exportAllToJson` writes the data of every document of a collection, in key order, to a dump
file, and renames that to the file it is for. `AnuDB.Os` is what the operating system answers
on the way, and `AnuDB.Files` what the paths hold. Keys are not written: a document that
is imported again goes under the `_id` its data shows.

So an export is a faithful list of the data (`AnuDB.StorageEngine.exportAllToJson_ok`), and
an import of it into an empty collection gives the collection back exactly if the data of every
document names it (`AnuDB.import_export_iff`).
-/

namespace AnuDB

open Effect

/-! ### Files -/

/-- What paths hold. -/
abbrev Files : Type := Std.ExtTreeMap Bytes Bytes compare

/-- What `stat` finds at a path. -/
inductive Stat where
  /-- Nothing. -/
  | missing : Stat
  /-- A directory. -/
  | directory : Stat
  /-- Something else. -/
  | other : Stat
  deriving DecidableEq

/-- **What the operating system answers an export**, and the iterator over the collection. -/
structure Os where
  /-- What `stat` finds of the directory. -/
  stat : Stat
  /-- Whether `mkdir` succeeds. -/
  mkdir : Bool
  /-- Whether the dump file can be opened. -/
  opens : Bool
  /-- The number of entries after which the iterator fails, if it does. -/
  fails : Option ℕ
  /-- Whether `remove` removes the dump file. -/
  removesDump : Bool
  /-- Whether `remove` removes the file of an earlier export. -/
  removesFinal : Bool
  /-- Whether `rename` succeeds. -/
  renames : Bool

/-- The system that does what it is asked. -/
def Os.calm : Os := ⟨.missing, true, true, none, true, true, true⟩

/-- The part of a path before the last slash or backslash. -/
def directoryOf (path : Bytes) : Option Bytes :=
  match path.reverse.dropWhile fun b => b != 47 && b != 92 with
  | [] => none
  | _ :: directory => some directory.reverse

/-- The directory is created if it is missing: the status where that goes wrong. -/
def prepareDirectory (os : Os) (exportPath : Bytes) : Option Status :=
  match directoryOf exportPath with
  | none => none
  | some directory =>
    match os.stat with
    | .missing =>
      if os.mkdir then none
      else some (.ioError (Bytes.ofText "Failed to create directory: " ++ directory))
    | .directory => none
    | .other => some (.ioError (Bytes.ofText "Path exists but is not a directory: " ++ directory))

/-- The file an export is written to first. -/
def temp_file (exportPath collection : Bytes) : Bytes :=
  exportPath ++ Bytes.ofText "/" ++ collection ++ Bytes.ofText ".dump"

/-- The file an export is for. -/
def final_file (exportPath collection : Bytes) : Bytes :=
  exportPath ++ Bytes.ofText "/" ++ collection ++ Bytes.ofText ".json"

theorem temp_file_ne_final_file (exportPath collection : Bytes) :
    temp_file exportPath collection ≠ final_file exportPath collection :=
  fun h => absurd (List.append_cancel_left h) (by decide)

/-! ### The export -/

/-- The text of one entry: the data in it, indented. -/
def dumpEntry (text : JsonText) (codec : Codec) (serialized : Bytes) : Except Exn Bytes := do
  let j ← codec.from_msgpack serialized
  let data ← j.index dataField
  (text.dumpIndented data).mapError Exn.exception

/-- The loop of an export: what is written, and what is thrown, if anything is. -/
def dumpEntries (text : JsonText) (codec : Codec) (first_entry : Bool) :
    List (Bytes × Bytes) → Bytes × Option Exn
  | [] => ([], none)
  | (_, serialized) :: entries =>
    let comma := if first_entry then [] else Bytes.ofText ",\n"
    match dumpEntry text codec serialized with
    | .error exn => (comma, some exn)
    | .ok dumped =>
      let rest := dumpEntries text codec false entries
      (comma ++ dumped ++ rest.1, rest.2)

/-- `StorageEngine::exportAllToJson`: what comes of it, and the files it leaves. -/
def StorageEngine.exportAllToJson (text : JsonText) (codec : Codec) (e : StorageEngine)
    (os : Os) (files : Files) (collection exportPath : Bytes) : Except Exn Status × Files :=
  match prepareDirectory os exportPath with
  | some status => (.ok status, files)
  | none =>
    let dump := temp_file exportPath collection
    if os.opens then
      match e.columnFamilies_[collection]? with
      | none =>
        -- what is open by then is closed, and stays
        (.ok (.notFound (Bytes.ofText "Collection not found: " ++ collection)),
          files.insert dump (Bytes.ofText "[\n"))
      | some cf =>
        let entries := match os.fails with
          | none => cf.toList
          | some n => cf.toList.take n
        match dumpEntries text codec true entries with
        | (written, some exn) => (.error exn, files.insert dump (Bytes.ofText "[\n" ++ written))
        | (written, none) =>
          let contents := Bytes.ofText "[\n" ++ written ++ Bytes.ofText "\n]"
          let files := files.insert dump contents
          if os.fails.isSome then
            (.ok (.internalError (Bytes.ofText "Unable to export json file")),
              if os.removesDump then files.erase dump else files)
          else
            let files := if os.removesFinal then files.erase (final_file exportPath collection)
              else files
            if os.renames then
              (.ok .OK, (files.erase dump).insert (final_file exportPath collection) contents)
            else
              (.ok (.ioError (Bytes.ofText "Failed to rename dump file to final JSON file")), files)
    else (.ok (.ioError (Bytes.ofText "Failed to open file for writing: " ++ dump)), files)

/-! ### What an export writes -/

variable {text : JsonText} {codec : Codec} {c : Collection} {e : StorageEngine}

/-- Texts that are dumped one after the other are written with commas between them. -/
theorem dumpEntries_false {entries : List (Bytes × Bytes)} {texts : List Bytes}
    (h : List.Forall₂ (fun x t => dumpEntry text codec x.2 = .ok t) entries texts) :
    dumpEntries text codec false entries =
      ((texts.map fun t => Bytes.ofText ",\n" ++ t).flatten, none) := by
  induction h with
  | nil => rfl
  | @cons x t entries texts hx _ ih =>
    rw [dumpEntries, hx]
    simp only [ih, Bool.false_eq_true, if_false, List.map_cons, List.flatten_cons]

theorem dumpEntries_true {entries : List (Bytes × Bytes)} {texts : List Bytes}
    (h : List.Forall₂ (fun x t => dumpEntry text codec x.2 = .ok t) entries texts) :
    dumpEntries text codec true entries = ((Bytes.ofText ",\n").intercalate texts, none) := by
  have hcommas (t : Bytes) (texts : List Bytes) : (Bytes.ofText ",\n").intercalate (t :: texts) =
      t ++ (texts.map fun t => Bytes.ofText ",\n" ++ t).flatten := by
    induction texts generalizing t with
    | nil => simp
    | cons t' texts ih =>
      rw [List.intercalate_cons_cons, ih, List.map_cons, List.flatten_cons]
      simp only [List.append_assoc]
  cases h with
  | nil => rfl
  | @cons x t entries texts hx hentries =>
    rw [dumpEntries, hx, hcommas]
    simp only [dumpEntries_false hentries, if_true, List.nil_append]

/-! ### Clean values -/

theorem ascii_alphanum (n : ℕ) : (alphanum.getD n 0).toNat < 0x80 := by
  have hall : (alphanum.all fun b => b.toNat < 0x80) = true := by decide
  rcases lt_or_ge n alphanum.length with hn | hn
  · rw [List.getD_eq_getElem _ _ hn]
    exact of_decide_eq_true (List.all_eq_true.mp hall _ (List.getElem_mem hn))
  · rw [List.getD_eq_default _ _ hn]
    decide

/-- A generated id is UTF-8. -/
theorem valid_generateId (entropy : Entropy) : Utf8.Valid (generateId entropy) := by
  have htime (n timestamp : ℕ) : ∀ b ∈ timeCharacters n timestamp, b.toNat < 0x80 := by
    induction n generalizing timestamp with
    | zero => exact fun b hb => by cases hb
    | succ n ih =>
      rintro b (_ | ⟨_, hb⟩)
      · exact ascii_alphanum _
      · exact ih _ b hb
  refine Utf8.valid_of_ascii fun b hb => ?_
  rcases List.mem_append.mp hb with hb | hb
  · exact htime _ _ b hb
  · obtain ⟨i, rfl⟩ := List.mem_ofFn.mp hb
    exact ascii_alphanum _

theorem DocumentMap.target_ne_nil (entropy : Entropy) (id : Bytes) : target entropy id ≠ [] := by
  rw [target]
  split_ifs with hid
  · exact generateId_ne_nil entropy
  · exact hid

/-- What a call brings in is clean: its values, and its ids. -/
def DocumentCall.IsClean : DocumentCall → Prop
  | .create _ doc => Utf8.Valid doc.id_ ∧ doc.data_.isClean = true
  | .update _ id ops _ => Utf8.Valid id ∧ ops.isClean = true
  | .delete _ => True

/-- The same of any call on a collection. -/
def CollectionCall.IsClean (call : CollectionCall) : Prop :=
  ∀ x, call = .document x → x.IsClean

/-- **The map is clean**: no document is without an id, and all data is clean. -/
def DocumentMap.Clean (m : DocumentMap) : Prop :=
  ∀ id data, m id = some data → id ≠ [] ∧ data.isClean = true

theorem isClean_identified {id : Bytes} {data : Json} (hid : Utf8.Valid id)
    (h : data.isClean = true) : (identified id data).isClean = true := by
  have hfield : decide (Utf8.Valid idField) = true := by decide
  have hstring : (Json.string id).isClean = true := decide_eq_true hid
  cases data with
  | null => exact @allMembers_set _ _ [] _ _ hfield hstring rfl
  | object members =>
    rw [identified]
    split_ifs
    · exact h
    · exact allMembers_set hfield hstring h
  | _ => exact h

theorem DocumentMap.Clean.assign {m : DocumentMap} (h : m.Clean) {entropy : Entropy} {id : Bytes}
    {data : Json} (hid : Utf8.Valid id) (hdata : data.isClean = true) :
    (m.assign (target entropy id) data).Clean := by
  have htarget : Utf8.Valid (target entropy id) := by
    rw [target]
    split_ifs
    · exact valid_generateId entropy
    · exact hid
  intro id' data' hassign
  rw [DocumentMap.assign] at hassign
  by_cases heq : id' = target entropy id
  · subst heq
    rw [Function.update_self] at hassign
    obtain rfl := Option.some.inj hassign
    exact ⟨target_ne_nil entropy id, isClean_identified htarget hdata⟩
  · rw [Function.update_of_ne heq] at hassign
    exact h id' data' hassign

theorem DocumentMap.Clean.before {m : DocumentMap} (h : m.Clean) {id : Bytes} {upsert : Bool}
    {data : Json} (hid : Utf8.Valid id) (hbefore : m.before id upsert = some data) :
    data.isClean = true := by
  rw [DocumentMap.before] at hbefore
  split at hbefore
  · rename_i data' hm
    obtain rfl := Option.some.inj hbefore
    exact (h id _ hm).2
  · split_ifs at hbefore
    obtain rfl := Option.some.inj hbefore
    exact @isClean_identified _ .null hid rfl

theorem DocumentMap.Clean.next {m : DocumentMap} (h : m.Clean)
    {label : CollectionCall × Outcome Exn Status} (hclean : label.1.IsClean) :
    (m.next label).Clean := by
  obtain ⟨call, outcome⟩ := label
  have happly : (m.apply call).Clean := by
    cases call with
    | document call =>
      cases call with
      | create entropy doc => exact h.assign (hclean _ rfl).1 (hclean _ rfl).2
      | update entropy id ops upsert =>
        obtain ⟨hid, hops⟩ := hclean _ rfl
        rw [DocumentMap.apply]
        rcases hbefore : m.before id upsert with _ | data
        · exact h
        · rcases hupdate : (⟨id, data⟩ : Document).applyUpdate ops with exn | doc
          · simpa [hupdate, Except.toOption] using h
          · simp only [Option.bind_some, hupdate, Except.toOption]
            exact h.assign hid (Document.allScalars_of_applyUpdate hops (h.before hid hbefore) hupdate)
      | delete id =>
        intro id' data hdelete
        rw [DocumentMap.apply] at hdelete
        by_cases hid : id' = id
        · rw [hid, Function.update_self] at hdelete
          cases hdelete
        · rw [Function.update_of_ne hid] at hdelete
          exact h id' data hdelete
    | createIndex index => exact h
    | deleteIndex index => exact h
  rw [DocumentMap.next]
  split
  · split_ifs
    · exact happly
    · exact h
  · exact h

/-- A collection that calls with clean values lead to: what it stands for, and that it is
clean. -/
structure Exportable (codec : Codec) (c : Collection) (e : StorageEngine) : Prop where
  mem : c.name_ ∈ e.columnFamilies_
  represents : Represents codec c (e.documents codec c) e
  clean : (e.documents codec c).Clean

/-- The steps that bring in clean values only. -/
abbrev CleanStep (codec : Codec) (c : Collection) :
    StorageEngine → CollectionCall × Outcome Exn Status → StorageEngine → Prop :=
  History.Meeting (fun _ label => label.1.IsClean) (CollectionStep codec c)

theorem represents_empty (codec : Codec) (hempty : e.contents c.name_ = some ∅) :
    Represents codec c (fun _ => none) e := by
  refine ⟨fun id serialized hs => ?_, fun id => ?_⟩
  · rw [StorageEngine.lookup_of_empty hempty] at hs
    cases hs
  · rw [StorageEngine.document, StorageEngine.lookup_of_empty hempty]
    rfl

/-- A collection is there as long as only calls on it are made. -/
theorem CollectionStep.mem_iff {e' : StorageEngine} {label : CollectionCall × Outcome Exn Status}
    (h : CollectionStep codec c e label e') :
    c.name_ ∈ e'.columnFamilies_ ↔ c.name_ ∈ e.columnFamilies_ := by
  obtain ⟨call, outcome⟩ := label
  obtain ⟨fates, -, rfl⟩ := h
  have hindex {p : Engine Status} (hp : p.Uses (Call.OnIndexes c.name_)) :
      c.name_ ∈ (p.run ⟨e, fates⟩).2.engine.columnFamilies_ ↔ c.name_ ∈ e.columnFamilies_ := by
    rw [StorageEngine.mem_iff_contents, StorageEngine.mem_iff_contents, contents_of_onIndexes hp]
  cases call with
  | document call =>
    change c.name_ ∈ ((call.perform codec c).run ⟨e, fates⟩).2.engine.columnFamilies_ ↔ _
    rw [DocumentCall.run_engine, StorageEngine.mem_applyAll]
  | createIndex index => exact hindex (Collection.uses_createIndex none index)
  | deleteIndex index => exact hindex (Collection.uses_deleteIndex index)

theorem exportable_of_run {e₀ : StorageEngine} (hempty : e₀.contents c.name_ = some ∅)
    {history : List (CollectionCall × Outcome Exn Status)}
    (h : History.Run (CleanStep codec c) e₀ history e) : Exportable codec c e := by
  have hmem : c.name_ ∈ e.columnFamilies_ := by
    refine h.invariant (I := fun e => c.name_ ∈ e.columnFamilies_) ?_ ?_
    · rw [StorageEngine.mem_iff_contents, hempty]
      rfl
    · intro s label s' hs hstep
      exact hstep.2.mem_iff.mpr hs
  have hrun : ∃ m, Represents codec c m e ∧ m.Clean := by
    refine h.invariant (I := fun e => ∃ m, Represents codec c m e ∧ m.Clean) ?_ ?_
    · exact ⟨fun _ => none, represents_empty codec hempty, fun id data hdata => by cases hdata⟩
    · rintro s label s' ⟨m, hrepresents, hclean⟩ ⟨hlabel, hstep⟩
      exact ⟨m.next label, hrepresents.next hstep, hclean.next hlabel⟩
  obtain ⟨m, hrepresents, hclean⟩ := hrun
  exact ⟨hmem, hrepresents.documents ▸ hrepresents, hrepresents.documents ▸ hclean⟩

/-! ### The file -/

/-- What an export makes of an entry: the data of the document under the key, and its text. -/
def Exported (text : JsonText) (codec : Codec) (m : DocumentMap) (x : Bytes × Bytes)
    (p : Json × Bytes) : Prop :=
  m x.1 = some p.1 ∧ p.1.isClean = true ∧ text.dumpIndented p.1 = .ok p.2 ∧
    dumpEntry text codec x.2 = .ok p.2

theorem Exportable.exists_exported (h : Exportable codec c e) (text : JsonText) :
    ∃ pairs, List.Forall₂ (Exported text codec (e.documents codec c)) (e.cursor c.name_) pairs := by
  have hone : ∀ x ∈ e.cursor c.name_, ∃ p, Exported text codec (e.documents codec c) x p := by
    rintro ⟨id, serialized⟩ hx
    have hlookup := StorageEngine.mem_cursor.mp hx
    obtain ⟨doc, hdoc, -, -⟩ := h.represents.1 id serialized hlookup
    have hm : e.documents codec c id = some doc.data_ := by
      rw [StorageEngine.documents, StorageEngine.document, hlookup, Option.bind_some, hdoc]
      rfl
    have hclean := (h.clean id doc.data_ hm).2
    obtain ⟨dumped, hdumped⟩ := (text.dumpIndented_ok_iff doc.data_).mpr
      (Json.isUtf8_of_isClean hclean)
    refine ⟨(doc.data_, dumped), hm, hclean, hdumped, ?_⟩
    obtain ⟨j, hj, hdoc⟩ := bind_eq_ok_iff.mp hdoc
    obtain ⟨id', -, hdoc⟩ := bind_eq_ok_iff.mp hdoc
    obtain ⟨s, -, hdoc⟩ := bind_eq_ok_iff.mp hdoc
    obtain ⟨data, hdata, hdoc⟩ := bind_eq_ok_iff.mp hdoc
    obtain rfl := Except.ok.inj hdoc
    rw [dumpEntry, hj, ok_bind, hdata, ok_bind, hdumped]
    rfl
  generalize e.cursor c.name_ = entries at hone
  induction entries with
  | nil => exact ⟨[], .nil⟩
  | cons x entries ih =>
    obtain ⟨p, hp⟩ := hone x List.mem_cons_self
    obtain ⟨pairs, hpairs⟩ := ih fun x hx => hone x (List.mem_cons_of_mem _ hx)
    exact ⟨p :: pairs, .cons hp hpairs⟩

theorem not_ok_of_prepareDirectory {os : Os} {exportPath : Bytes} {status : Status}
    (h : prepareDirectory os exportPath = some status) : status.ok = false := by
  rw [prepareDirectory] at h
  split at h
  · cases h
  · split at h
    · split_ifs at h
      rw [← Option.some.inj h]
      rfl
    · cases h
    · rw [← Option.some.inj h]
      rfl

/-- What a loop that throws nothing over the entries of the collection writes. -/
theorem dumpEntries_of_exported {m : DocumentMap} {entries : List (Bytes × Bytes)}
    {pairs : List (Json × Bytes)} (h : List.Forall₂ (Exported text codec m) entries pairs) :
    dumpEntries text codec true entries =
      ((Bytes.ofText ",\n").intercalate (pairs.map Prod.snd), none) := by
  refine dumpEntries_true ?_
  rw [List.forall₂_map_right_iff]
  exact h.imp fun x p hp => hp.2.2.2

/-- **The file is what the collection stands for**: where an export reports OK, it is an array of
the data of every document, in the order of the ids. -/
theorem StorageEngine.exportAllToJson_ok {os : Os} {files files' : Files} {exportPath : Bytes}
    {status : Status} {m : DocumentMap} {pairs : List (Json × Bytes)}
    (hpairs : List.Forall₂ (Exported text codec m) (e.cursor c.name_) pairs)
    (h : e.exportAllToJson text codec os files c.name_ exportPath = (.ok status, files'))
    (hok : status.ok = true) :
    files'[final_file exportPath c.name_]? = some (arrayText (pairs.map Prod.snd)) := by
  have hfailed {status' : Status} {files₁ : Files} (hnot : status'.ok = false)
      (h : ((.ok status', files₁) : Except Exn Status × Files) = (.ok status, files')) : False := by
    obtain rfl := Except.ok.inj (Prod.mk.inj h).1
    rw [hnot] at hok
    cases hok
  simp only [exportAllToJson] at h
  split at h
  · rename_i hprepare
    exact (hfailed (not_ok_of_prepareDirectory hprepare) h).elim
  by_cases hopens : os.opens = true
  · rw [if_pos hopens] at h
    rw [cursor] at hpairs
    rcases hcf : e.columnFamilies_[c.name_]? with _ | cf
    · simp only [hcf] at h
      exact (hfailed rfl h).elim
    · rw [hcf] at hpairs
      rcases hfails : os.fails with _ | n
      · -- the iterator walks all of the collection
        simp only [hcf, hfails, dumpEntries_of_exported hpairs, Option.isSome_none,
          Bool.false_eq_true, if_false] at h
        by_cases hrenames : os.renames = true
        · rw [if_pos hrenames] at h
          rw [← (Prod.mk.inj h).2, Std.ExtTreeMap.getElem?_insert_self]
          rfl
        · rw [if_neg hrenames] at h
          exact (hfailed rfl h).elim
      · simp only [hcf, hfails, Option.isSome_some, if_true] at h
        split at h
        · cases h
        · exact (hfailed rfl h).elim
  · rw [if_neg hopens] at h
    exact (hfailed rfl h).elim

/-- Where the system does what it is asked, an export of such a collection reports OK. -/
theorem StorageEngine.exportAllToJson_calm {m : DocumentMap} {pairs : List (Json × Bytes)}
    (hpairs : List.Forall₂ (Exported text codec m) (e.cursor c.name_) pairs)
    (hmem : c.name_ ∈ e.columnFamilies_) (files : Files) (exportPath : Bytes) :
    (e.exportAllToJson text codec .calm files c.name_ exportPath).1 = .ok .OK := by
  obtain ⟨cf, hcf⟩ := Option.isSome_iff_exists.mp (mem_iff_contents.mp hmem)
  have hprepare : prepareDirectory .calm exportPath = none := by
    rw [prepareDirectory]
    cases directoryOf exportPath <;> rfl
  rw [contents] at hcf
  rw [cursor, hcf] at hpairs
  rw [exportAllToJson, hprepare]
  simp only [Os.calm, if_true, hcf, dumpEntries_of_exported hpairs]
  rfl

theorem filterMap_of_exported {m : DocumentMap} {entries : List (Bytes × Bytes)}
    {pairs : List (Json × Bytes)} (h : List.Forall₂ (Exported text codec m) entries pairs) :
    (entries.map Prod.fst).filterMap m = pairs.map Prod.fst := by
  induction h with
  | nil => rfl
  | cons hx _ ih => rw [List.map_cons, List.filterMap_cons_some hx.1, ih, List.map_cons]

/-- The file of an export is read back. -/
theorem parse_of_exported (text : JsonText) {m : DocumentMap} {entries : List (Bytes × Bytes)}
    {pairs : List (Json × Bytes)} (h : List.Forall₂ (Exported text codec m) entries pairs) :
    text.parse (arrayText (pairs.map Prod.snd)) =
      .ok (.array ((entries.map Prod.fst).filterMap m)) := by
  have hall : ∀ p ∈ pairs, p.1.isClean = true ∧ text.dumpIndented p.1 = .ok p.2 := by
    induction h with
    | nil => exact fun p hp => by cases hp
    | cons hx _ ih => exact List.forall_mem_cons.mpr ⟨⟨hx.2.1, hx.2.2.1⟩, ih⟩
  rw [filterMap_of_exported h]
  exact text.parse_arrayText pairs hall

/-! ### The import of what was exported -/

/-- A document that has an id, and shows one, is put under its key, where no call is refused and
the collection has no index. -/
theorem Collection.run_createDocument_calm (hmem : c.name_ ∈ e.columnFamilies_)
    (hindexes : e.getIndexNames c.name_ = []) (entropy : Entropy) {doc : Document}
    (hid : doc.id_ ≠ []) (hfield : doc.hasField idField = true) :
    (c.createDocument codec entropy doc).run (.calm e) = (.ret (.OK, doc),
      .calm (e.apply ⟨c.name_, doc.id_, some (doc.to_msgpack codec)⟩)) := by
  have hassign : (assignId entropy doc).withId = .ok doc := by
    rw [assignId, if_neg hid, Document.withId, if_pos hfield]
  set x : Write := ⟨c.name_, doc.id_, some (doc.to_msgpack codec)⟩
  have hsteps : DocumentCall.storeSteps codec c doc (e.getIndexNames c.name_) = [.ok x] := by
    rw [hindexes]
    rfl
  have hok : (e.tryWrite none x).1.ok = true := StorageEngine.tryWrite_ok_iff.mpr ⟨rfl, hmem⟩
  have hwrite : (Engine.writes [.ok x]).run (.calm e) = (.ret .OK, .calm (e.apply x)) := by
    have hfault : (World.calm e).fates.head.fault? = some none := rfl
    rw [Engine.run_writes_singleton, ← bind_pure (Engine.write x), Engine.run_write_bind, hfault]
    change (pure (e.tryWrite none x).1 : Engine Status).run (.calm (e.tryWrite none x).2) = _
    rw [Engine.tryWrite_eq_OK hok, StorageEngine.tryWrite_engine, if_pos rfl]
    rfl
  have hhead : (World.calm e).fates.head ≠ .stop := show Fate.ok ≠ Fate.stop by simp
  rw [run_createDocument hassign, if_neg hhead]
  simp only [show (World.calm e).engine = e from rfl, hsteps, World.next_calm, hwrite]
  rfl

/-- Data that has an `_id` is given none. -/
theorem identified_of_find? {id : Bytes} {data v : Json} (h : data.find? idField = some v) :
    identified id data = data := by
  cases data with
  | object members =>
    have hmember : (members.lookup idField).isSome = true := Option.isSome_of_eq_some h
    rw [identified, if_pos hmember]
  | _ => cases h

/-- **The items of an export are bound one after the other**, where no call is refused and the
collection has no index. -/
theorem Collection.run_importItems_calm {m : DocumentMap} (h : Represents codec c m e)
    (hmem : c.name_ ∈ e.columnFamilies_) (hindexes : e.getIndexNames c.name_ = [])
    (entropies : Stream' Entropy) (successCount failureCount : ℕ) (entries : List (Bytes × Json))
    (hentries : ∀ x ∈ entries, x.1 ≠ [] ∧ x.2.find? idField = some (.string x.1)) :
    ∃ e', (c.importItems codec entropies successCount failureCount (entries.map Prod.snd)).run
        (.calm e) = (.ret (), .calm e') ∧
      Represents codec c (entries.foldl (fun m x => Function.update m x.1 (some x.2)) m) e' := by
  induction entries generalizing m e entropies successCount with
  | nil => exact ⟨e, rfl, h⟩
  | cons x entries ih =>
    obtain ⟨id, data⟩ := x
    obtain ⟨hid, hdata⟩ := hentries _ List.mem_cons_self
    have hdocId : importId successCount failureCount data = .ok id := by
      rw [importId, hdata]
      rfl
    have hcreate := @run_createDocument_calm codec c e hmem hindexes entropies.head ⟨id, data⟩ hid
      (Option.isSome_of_eq_some hdata)
    set w : Write := ⟨c.name_, id, some (Document.to_msgpack codec ⟨id, data⟩)⟩
    -- the create is a step of the collection, and binds the id
    have hstep : CollectionStep codec c e (.document (.create entropies.head ⟨id, data⟩), .ret .OK)
        (e.apply w) := by
      have hrun : ((DocumentCall.create entropies.head ⟨id, data⟩).perform codec c).run (.calm e) =
          (.ret .OK, .calm (e.apply w)) := by
        rw [DocumentCall.perform, Engine.run, Prog.run_map]
        rw [Engine.run] at hcreate
        rw [hcreate]
        rfl
      exact ⟨Stream'.const .ok, congrArg Prod.fst hrun, congrArg (fun r => r.2.engine) hrun⟩
    have hnext := h.next hstep
    have hm : m.next (.document (.create entropies.head ⟨id, data⟩), .ret .OK) =
        Function.update m id (some data) := by
      change m.assign (DocumentMap.target entropies.head id) data = _
      rw [DocumentMap.target, if_neg hid, DocumentMap.assign, identified_of_find? hdata]
    rw [hm] at hnext
    obtain ⟨e', hrest, hrepresents⟩ := ih hnext ((e.mem_applyAll [w]).mpr hmem)
      ((e.getIndexNames_applyAll [w] c.name_).trans hindexes) entropies.tail (successCount + 1)
      fun x hx => hentries x (List.mem_cons_of_mem _ hx)
    refine ⟨e', ?_, hrepresents⟩
    rw [List.map_cons, importItems, if_pos (Json.isObject_of_find? hdata), Engine.run,
      Prog.run_ofExcept_bind, hdocId]
    simp only
    rw [Prog.run_bind]
    rw [Engine.run] at hcreate
    rw [hcreate]
    exact hrest

/-- The map of a list that has each id once. -/
theorem foldl_update_eq {entries : List (Bytes × Json)} (hnodup : (entries.map Prod.fst).Nodup)
    {m m' : DocumentMap} (hmem : ∀ x ∈ entries, m' x.1 = some x.2)
    (hnot : ∀ id, id ∉ entries.map Prod.fst → m' id = m id) :
    entries.foldl (fun (m : DocumentMap) x => Function.update m x.1 (some x.2)) m = m' := by
  induction entries generalizing m with
  | nil =>
    funext id
    exact (hnot id List.not_mem_nil).symm
  | cons x entries ih =>
    rw [List.map_cons, List.nodup_cons] at hnodup
    rw [List.foldl_cons]
    refine ih hnodup.2 (fun y hy => hmem y (List.mem_cons_of_mem _ hy)) fun id hid => ?_
    by_cases heq : id = x.1
    · rw [heq, Function.update_self]
      exact hmem x List.mem_cons_self
    · rw [Function.update_of_ne heq]
      refine hnot id fun h => ?_
      rw [List.map_cons] at h
      rcases List.mem_cons.mp h with h | h
      · exact heq h
      · exact hid h

/-- What the item of an import is stored as: it names itself, or it goes under a generated id. -/
theorem exists_named_of_isImport (entropy : Entropy) {docId : Bytes} {item : Json}
    (hobject : item.isObject = true) (hid : ∀ id, item.find? idField = some id → id = .string docId) :
    ∃ s, (identified (DocumentMap.target entropy docId) item).find? idField = some (.string s) ∧
      (s = DocumentMap.target entropy docId ∨
        DocumentMap.target entropy docId = generateId entropy) := by
  rcases hfind : item.find? idField with _ | v
  · refine ⟨_, find?_identified ?_ ?_, .inl rfl⟩
    · intro v hv
      rw [hfind] at hv
      cases hv
    · cases item with
      | object members =>
        rw [identified]
        split_ifs <;> rfl
      | _ => cases hobject
  · obtain rfl := hid v hfind
    refine ⟨docId, (identified_of_find? hfind).symm ▸ hfind, ?_⟩
    rw [DocumentMap.target]
    split_ifs
    · exact .inr rfl
    · exact .inl rfl

/-- **What an import from nothing leads to**: the data names the document, or the document has a
generated id. -/
theorem named_of_imports {e' : StorageEngine} (hempty : e.contents c.name_ = some ∅)
    {entropies : Stream' Entropy} (items : List Json)
    {history : List (CollectionCall × Outcome Exn Status)}
    (hrun : History.Run (CollectionStep codec c) e history e')
    (hcreates : ∀ x ∈ history, ∃ item ∈ items.filter Json.isObject,
      IsImport entropies item x.1) :
    ∀ id data, e'.documents codec c id = some data → ∃ s,
      data.find? idField = some (.string s) ∧ (s = id ∨ ∃ n, id = generateId (entropies.get n)) := by
  have hsome : ∃ m, Represents codec c m e' ∧ ∀ id data, m id = some data → ∃ s,
      data.find? idField = some (.string s) ∧ (s = id ∨ ∃ n, id = generateId (entropies.get n)) := by
    induction hrun with
    | nil => exact ⟨_, represents_empty codec hempty, fun id data hdata => by cases hdata⟩
    | @snoc history s s' label hrun hlast ih =>
      obtain ⟨m, hrepresents, hnamed⟩ := ih fun x hx => hcreates x (by simp [hx])
      obtain ⟨item, hitem, n, docId, hcall, hid⟩ := hcreates label (by simp)
      obtain ⟨call, outcome⟩ := label
      obtain rfl : call = _ := hcall
      refine ⟨_, hrepresents.next hlast, fun id data hdata => ?_⟩
      rw [DocumentMap.next] at hdata
      cases outcome with
      | ret status =>
        simp only at hdata
        split_ifs at hdata
        · -- the item has been bound
          change m.assign (DocumentMap.target (entropies.get n) docId) item id = some data at hdata
          rw [DocumentMap.assign] at hdata
          by_cases heq : id = DocumentMap.target (entropies.get n) docId
          · subst heq
            rw [Function.update_self] at hdata
            obtain rfl := Option.some.inj hdata
            obtain ⟨s, hs, hname⟩ := exists_named_of_isImport (entropies.get n)
              (List.mem_filter.mp hitem).2 hid
            exact ⟨s, hs, hname.imp id fun h => ⟨n, h⟩⟩
          · rw [Function.update_of_ne heq] at hdata
            exact hnamed id data hdata
        · exact hnamed id data hdata
      | _ => exact hnamed id data hdata
  obtain ⟨m, hrepresents, hnamed⟩ := hsome
  rwa [hrepresents.documents]

/-- An import of the items of a file, whatever it leads to. -/
theorem named_of_importFromJsonFile (text : JsonText) (hempty : e.contents c.name_ = some ∅)
    (entropies : Stream' Entropy) (filePath : Bytes) (file : Option Bytes) (fates : Stream' Fate) :
    ∀ id data, (((c.importFromJsonFile text codec entropies filePath file).run
      ⟨e, fates⟩).2.engine).documents codec c id = some data → ∃ s,
        data.find? idField = some (.string s) ∧
          (s = id ∨ ∃ n, id = generateId (entropies.get n)) := by
  obtain ⟨history, hrun, hcreates⟩ := Collection.run_importFromJsonFile text codec c ⟨e, fates⟩
    entropies filePath file
  refine named_of_imports hempty (importedItems text file) hrun fun x hx => ?_
  obtain ⟨item, hitem, himport⟩ := hcreates x hx
  refine ⟨item, List.mem_filter.mpr ⟨hitem, ?_⟩, himport⟩
  rw [importedItems] at hitem
  split at hitem
  · exact (List.mem_filter.mp hitem).2
  · cases hitem

/-! ### Export, then import -/

section Exportable

variable {c₁ : Collection} {e₁ : StorageEngine}

theorem Exportable.mem_ids (h : Exportable codec c e) (id : Bytes) :
    id ∈ (e.cursor c.name_).map Prod.fst ↔ (e.documents codec c id).isSome = true := by
  rw [StorageEngine.mem_keys_cursor, StorageEngine.documents, StorageEngine.document]
  rcases hlookup : e.lookup c.name_ id with _ | serialized
  · rfl
  · -- what is stored decodes
    obtain ⟨doc, hdoc, -, -⟩ := h.represents.1 id serialized hlookup
    rw [Option.bind_some, hdoc]
    rfl

/-- If imports always give the collection back, its data names the documents: where it does not,
the document would have whatever id is generated. -/
theorem labelled_of_import (hempty : e₁.contents c₁.name_ = some ∅) {filePath : Bytes}
    {file : Option Bytes}
    (himport : ∀ entropies, ((c₁.importFromJsonFile text codec entropies filePath file).run
      (.calm e₁)).2.engine.documents codec c₁ = e.documents codec c) (id : Bytes) (data : Json)
    (hdata : e.documents codec c id = some data) : data.find? idField = some (.string id) := by
  have hnamed (entropy : Entropy) : ∃ s, data.find? idField = some (.string s) ∧
      (s = id ∨ id = generateId entropy) := by
    rw [← himport (Stream'.const entropy)] at hdata
    obtain ⟨s, hs, hname⟩ := named_of_importFromJsonFile text hempty _ _ _ _ id data hdata
    exact ⟨s, hs, hname.imp (fun h => h) fun ⟨_, h⟩ => h⟩
  obtain ⟨s, hs, rfl | hfirst⟩ := hnamed ⟨0, fun _ => 0⟩
  · exact hs
  · obtain ⟨s', hs', rfl | hsecond⟩ := hnamed ⟨0, fun _ => 1⟩
    · exact hs'
    · exact absurd (hfirst.symm.trans hsecond) (by decide)

theorem Exportable.import_of_labelled (h : Exportable codec c e)
    (hlabelled : ∀ id data, e.documents codec c id = some data →
      data.find? idField = some (.string id)) {pairs : List (Json × Bytes)}
    (hpairs : List.Forall₂ (Exported text codec (e.documents codec c)) (e.cursor c.name_) pairs)
    (hempty : e₁.contents c₁.name_ = some ∅) (hindexes : e₁.getIndexNames c₁.name_ = [])
    (entropies : Stream' Entropy) (filePath : Bytes) :
    ((c₁.importFromJsonFile text codec entropies filePath
      (some (arrayText (pairs.map Prod.snd)))).run (.calm e₁)).2.engine.documents codec c₁ =
        e.documents codec c := by
  -- the entries, with the data they show
  obtain ⟨entries, hids, hitems, hmap⟩ : ∃ entries : List (Bytes × Json),
      entries.map Prod.fst = (e.cursor c.name_).map Prod.fst ∧
        entries.map Prod.snd = pairs.map Prod.fst ∧
          ∀ x ∈ entries, e.documents codec c x.1 = some x.2 := by
    clear hlabelled
    generalize e.cursor c.name_ = cursor at hpairs
    induction hpairs with
    | nil => exact ⟨[], rfl, rfl, fun x hx => by cases hx⟩
    | @cons x p cursor pairs hx _ ih =>
      obtain ⟨entries, hids, hitems, hmap⟩ := ih
      refine ⟨(x.1, p.1) :: entries, ?_, ?_, List.forall_mem_cons.mpr ⟨hx.1, hmap⟩⟩
      · rw [List.map_cons, List.map_cons, hids]
      · rw [List.map_cons, List.map_cons, hitems]
  have hmem : c₁.name_ ∈ e₁.columnFamilies_ := by
    rw [StorageEngine.mem_iff_contents, hempty]
    rfl
  obtain ⟨e', hrun, hrepresents⟩ := Collection.run_importItems_calm
    (represents_empty codec hempty) hmem hindexes entropies 0 0 entries
    fun x hx => ⟨(h.clean _ _ (hmap x hx)).1, hlabelled _ _ (hmap x hx)⟩
  have hresult : ((c₁.importFromJsonFile text codec entropies filePath
      (some (arrayText (pairs.map Prod.snd)))).run (.calm e₁)) = (.ret .OK, .calm e') := by
    have hread := text.read_of_parse (parse_of_exported text hpairs)
    rw [filterMap_of_exported hpairs, ← hitems] at hread
    rw [Engine.run] at hrun
    rw [Collection.importFromJsonFile, Engine.run, Prog.run_tryCatch, Collection.importContents,
      Prog.run_ofExcept_bind, hread]
    simp only [Except.mapError]
    rw [Prog.run_bind, hrun]
    rfl
  rw [hresult]
  change e'.documents codec c₁ = _
  rw [hrepresents.documents]
  refine foldl_update_eq ?_ hmap fun id hid => ?_
  · rw [hids]
    exact (e.pairwise_cursor c.name_).imp fun hlt => hlt.ne
  · rw [hids, h.mem_ids, Option.not_isSome_iff_eq_none] at hid
    exact hid

end Exportable

/-- **An export lists the data of every document once, in the order of the ids, and an import of it
into an empty collection gives the collection back exactly if the data of every document names
it.** -/
theorem import_export_iff (text : JsonText) {e₀ : StorageEngine} (hempty : e₀.contents c.name_ = some ∅)
    {history : List (CollectionCall × Outcome Exn Status)}
    (hrun : History.Run (CleanStep codec c) e₀ history e) :
    (∀ files exportPath,
      (e.exportAllToJson text codec .calm files c.name_ exportPath).1 = .ok .OK) ∧
    ∀ os files exportPath status files',
      e.exportAllToJson text codec os files c.name_ exportPath = (.ok status, files') →
      status.ok = true →
      (∃ (contents : Bytes) (ids : List Bytes),
        files'[final_file exportPath c.name_]? = some contents ∧
        ids.Pairwise (· < ·) ∧ (∀ id, id ∈ ids ↔ (e.documents codec c id).isSome = true) ∧
        text.parse contents = .ok (.array (ids.filterMap (e.documents codec c)))) ∧
      ∀ (c₁ : Collection) (e₁ : StorageEngine) (filePath : Bytes),
        e₁.contents c₁.name_ = some ∅ → e₁.getIndexNames c₁.name_ = [] →
        ((∀ entropies, ((c₁.importFromJsonFile text codec entropies filePath
            files'[final_file exportPath c.name_]?).run (.calm e₁)).2.engine.documents codec c₁ =
              e.documents codec c) ↔
          ∀ id data, e.documents codec c id = some data →
            data.find? idField = some (.string id)) := by
  have hexportable := exportable_of_run hempty hrun
  obtain ⟨pairs, hpairs⟩ := hexportable.exists_exported text
  have hids : ∀ id, id ∈ (e.cursor c.name_).map Prod.fst ↔
      (e.documents codec c id).isSome = true := hexportable.mem_ids
  refine ⟨fun files exportPath => StorageEngine.exportAllToJson_calm hpairs hexportable.mem files
    exportPath, fun os files exportPath status files' hexport hok => ?_⟩
  have hfile := StorageEngine.exportAllToJson_ok hpairs hexport hok
  have hparse := parse_of_exported text hpairs
  refine ⟨⟨_, _, hfile, e.pairwise_cursor c.name_, hids, hparse⟩, fun c₁ e₁ filePath hempty₁
    hindexes => ⟨fun himport id data hdata => ?_, fun hlabelled entropies => ?_⟩⟩
  · exact labelled_of_import hempty₁ himport id data hdata
  · rw [hfile]
    exact hexportable.import_of_labelled hlabelled hpairs hempty₁ hindexes entropies filePath

/-- A directory to export to. -/
def exportDir : Bytes := Bytes.ofText "./out"

/-- The files after an export of the collection, where everything goes through. -/
def exportedFiles (e : StorageEngine) : Files :=
  (e.exportAllToJson .standard .standard .calm ∅ letterC.name_ exportDir).2

/-- The engine after an import of what was exported of another. -/
def importedFrom (e : StorageEngine) (entropies : Stream' Entropy) : StorageEngine :=
  ((letterC.importFromJsonFile .standard .standard entropies exportDir
    (exportedFiles e)[final_file exportDir letterC.name_]?).run (.calm (plainAfter []))).2.engine

theorem isClean_createPlain : (CollectionCall.document createPlain).IsClean := by
  rintro x ⟨⟩
  exact ⟨by decide, by decide⟩

theorem import_export_plain :
    (importedFrom (plainAfter [createPlain])
      (Stream'.const ⟨0, fun _ => 0⟩)).documents .standard letterC =
        (plainAfter [createPlain]).documents .standard letterC := by
  have hempty : (plainAfter []).contents letterC.name_ = some ∅ := by decide +kernel
  have hstep : CollectionStep .standard letterC (plainAfter [])
      (.document createPlain, .ret .OK) (plainAfter [createPlain]) :=
    ⟨Stream'.const .ok, by rfl, by rfl⟩
  have hmap := ((represents_empty _ hempty).next hstep).documents
  obtain ⟨hcalm, hexport⟩ := import_export_iff .standard hempty
    (History.Run.nil.snoc ⟨isClean_createPlain, hstep⟩)
  obtain ⟨-, himport⟩ := hexport .calm ∅ exportDir .OK (exportedFiles (plainAfter [createPlain]))
    (Prod.ext (hcalm ∅ exportDir) rfl) rfl
  refine (himport letterC (plainAfter []) exportDir hempty (by decide +kernel)).mpr ?_ _
  intro id data hdata
  rw [hmap] at hdata
  change Function.update (fun _ => none) (Bytes.ofText "a")
    (some (identified (Bytes.ofText "a") (.object [(Bytes.ofText "f", .integer 1)]))) id = _ at hdata
  by_cases hid : id = Bytes.ofText "a"
  · subst hid
    rw [Function.update_self] at hdata
    rw [← Option.some.inj hdata]
    rfl
  · rw [Function.update_of_ne hid] at hdata
    cases hdata

theorem not_import_export_of_foreign :
    ¬∀ (e₀ e : StorageEngine) (history : List (CollectionCall × Outcome Exn Status)),
      e₀.contents letterC.name_ = some ∅ →
      History.Run (CleanStep .standard letterC) e₀ history e → ∀ entropies,
        (importedFrom e entropies).documents .standard letterC = e.documents .standard letterC := by
  intro h
  have hclean : (CollectionCall.document foreignCall).IsClean := by
    rintro x ⟨⟩
    exact ⟨by decide, by decide⟩
  have hstep : CollectionStep .standard letterC (plainAfter [])
      (.document foreignCall, .ret .OK) (plainAfter [foreignCall]) :=
    ⟨Stream'.const .ok, by rfl, by rfl⟩
  have hsame := h (plainAfter []) (plainAfter [foreignCall]) _ (by decide +kernel)
    (History.Run.nil.snoc ⟨hclean, hstep⟩) (Stream'.const ⟨0, fun _ => 0⟩)
  have hstored : ((plainAfter [foreignCall]).documents .standard letterC
      (Bytes.ofText "a")).isSome = true := by decide +kernel
  rw [← hsame] at hstored
  revert hstored
  decide +kernel

end AnuDB
