import AnuDB.Export
import AnuDB.JsonFormat

/-!
# What an export leaves behind

An export is written to a dump file, and renamed to the file it is for once it is complete. So the
file of an earlier export is there until the new one is, and where something goes wrong on the way
the dump can be removed. The code does that where the iterator reports an error. Where the
collection does not exist the dump has been opened by then, and stays; and where it cannot be
renamed it stays too, and the file of the earlier export has been removed just before.

So of an export that reports an error nothing is seen exactly if no dump was opened, or the iterator
failed and the dump could be removed (`AnuDB.StorageEngine.exportIsClean_iff`). An export that
reports OK has written everything, and leaves no dump.
-/

namespace AnuDB

/-- An export throws if an entry cannot be dumped. -/
theorem dumpEntries_eq_none_iff (text : JsonText) (codec : Codec) (first_entry : Bool)
    (entries : List (Bytes × Bytes)) :
    (dumpEntries text codec first_entry entries).2 = none ↔
      ∀ x ∈ entries, ∃ dumped, dumpEntry text codec x.2 = .ok dumped := by
  induction entries generalizing first_entry with
  | nil => exact iff_of_true rfl fun x hx => absurd hx List.not_mem_nil
  | cons x entries ih =>
    rw [List.forall_mem_cons, dumpEntries]
    rcases hx : dumpEntry text codec x.2 with exn | dumped
    · refine iff_of_false (fun h => by cases h) ?_
      rintro ⟨⟨dumped, h⟩, -⟩
      cases h
    · show (dumpEntries text codec false entries).2 = none ↔ _
      rw [ih, and_iff_right ⟨dumped, rfl⟩]

namespace StorageEngine

variable (text : JsonText) (codec : Codec) (e : StorageEngine) (os : Os) (files : Files)
variable (collection exportPath : Bytes)

/-! ### The property -/

/-- The dump file is opened: the directory is there or can be made, and the file can be opened. -/
def OpensDump : Prop := prepareDirectory os exportPath = none ∧ os.opens = true

/-- The contents are those of a complete export: the data of every document, in key order. -/
def IsExport (contents : Bytes) : Prop :=
  ∃ texts, List.Forall₂ (fun x t => dumpEntry text codec x.2 = .ok t) (e.cursor collection) texts ∧
    contents = arrayText texts

/-- **An export leaves nothing half done**: where it reports an error, the file of an earlier export
is as it was and the dump file, if it was opened, is gone; and where it reports OK, the file has the
new export in it, and there is no dump. -/
def ExportIsClean : Prop :=
  ∀ status files', e.exportAllToJson text codec os files collection exportPath =
      (.ok status, files') →
    (status.ok = false →
      files'[final_file exportPath collection]? = files[final_file exportPath collection]? ∧
      (OpensDump os exportPath → files'[temp_file exportPath collection]? = none)) ∧
    (status.ok = true →
      (∃ contents, files'[final_file exportPath collection]? = some contents ∧
        IsExport text codec e collection contents) ∧
      files'[temp_file exportPath collection]? = none)

/-! ### Exports that end -/

/-- What the iterator of an export gives. -/
def walked : List (Bytes × Bytes) :=
  match os.fails with
  | none => e.cursor collection
  | some n => (e.cursor collection).take n

/-- **An export that does not throw**: if it comes to the entries, they can be dumped. -/
def Dumps : Prop := prepareDirectory os exportPath = none → os.opens = true →
  ∀ x ∈ e.walked os collection, ∃ dumped, dumpEntry text codec x.2 = .ok dumped

variable {e collection} in
theorem walked_of_none (h : e.columnFamilies_[collection]? = none) :
    e.walked os collection = [] := by
  rw [walked, cursor, h]
  rcases os.fails with _ | n
  · rfl
  · exact List.take_nil

theorem exportAllToJson_ok_iff (files : Files) :
    (∃ result, (e.exportAllToJson text codec os files collection exportPath).1 = .ok result) ↔
      e.Dumps text codec os collection exportPath := by
  rw [exportAllToJson, Dumps]
  rcases hprepare : prepareDirectory os exportPath with _ | status
  · rw [imp_iff_right rfl]
    by_cases hopens : os.opens = true
    · simp only [hopens, if_true, forall_const]
      rcases hcf : e.columnFamilies_[collection]? with _ | cf
      · refine iff_of_true ⟨_, rfl⟩ fun x hx => ?_
        rw [walked_of_none os hcf] at hx
        cases hx
      · rw [← dumpEntries_eq_none_iff text codec true, walked, cursor, hcf]
        simp only
        rcases dumpEntries text codec true _ with ⟨written, _ | exn⟩
        · refine iff_of_true ?_ rfl
          simp only
          split_ifs <;> exact ⟨_, rfl⟩
        · refine iff_of_false ?_ (fun h => by cases h)
          rintro ⟨result, hresult⟩
          cases hresult
    · exact iff_of_true (by rw [if_neg hopens]; exact ⟨_, rfl⟩) fun h => absurd h hopens
  · exact iff_of_true ⟨status, rfl⟩ fun h => by cases h

/-! ### The exits -/

variable {text codec e os collection exportPath}

/-- Where every entry has a text, these are written. -/
theorem exists_texts {entries : List (Bytes × Bytes)}
    (h : ∀ x ∈ entries, ∃ t, dumpEntry text codec x.2 = .ok t) :
    ∃ texts, List.Forall₂ (fun x t => dumpEntry text codec x.2 = .ok t) entries texts := by
  induction entries with
  | nil => exact ⟨[], .nil⟩
  | cons x entries ih =>
    obtain ⟨⟨t, ht⟩, hrest⟩ := List.forall_mem_cons.mp h
    obtain ⟨texts, htexts⟩ := ih hrest
    exact ⟨t :: texts, .cons ht htexts⟩

/-- No dump is opened, and nothing happens. -/
theorem exportAllToJson_of_not_opensDump (h : ¬OpensDump os exportPath) :
    ∃ status, status.ok = false ∧
      e.exportAllToJson text codec os files collection exportPath = (.ok status, files) := by
  rw [exportAllToJson]
  rcases hprepare : prepareDirectory os exportPath with _ | status
  · have hopens : ¬os.opens = true := fun hopens => h ⟨hprepare, hopens⟩
    simp only [if_neg hopens]
    exact ⟨_, rfl, rfl⟩
  · exact ⟨status, not_ok_of_prepareDirectory hprepare, rfl⟩

/-- The collection does not exist, and the dump has been opened. -/
theorem exportAllToJson_of_notMem (hopens : OpensDump os exportPath)
    (h : collection ∉ e.columnFamilies_) :
    e.exportAllToJson text codec os files collection exportPath =
      (.ok (.notFound (Bytes.ofText "Collection not found: " ++ collection)),
        files.insert (temp_file exportPath collection) (Bytes.ofText "[\n")) := by
  have hnone : e.columnFamilies_[collection]? = none := Std.ExtTreeMap.getElem?_eq_none h
  rw [exportAllToJson, hopens.1]
  simp only [if_pos hopens.2, hnone]

/-- An entry has no text, and that is thrown. -/
theorem exportAllToJson_of_not_dumps (h : ¬e.Dumps text codec os collection exportPath) :
    ∃ exn files', e.exportAllToJson text codec os files collection exportPath =
      (.error exn, files') := by
  rcases hexport : e.exportAllToJson text codec os files collection exportPath with
    ⟨exn | status, files'⟩
  · exact ⟨exn, files', rfl⟩
  · have hreturns := e.exportAllToJson_ok_iff text codec os collection exportPath files
    exact absurd (hreturns.mp ⟨status, congrArg Prod.fst hexport⟩) h

theorem getElem?_insert_of_ne {files : Files} {p q x : Bytes} (h : p ≠ q) :
    (files.insert p x)[q]? = files[q]? := by
  rw [Std.ExtTreeMap.getElem?_insert, if_neg fun heq => h (Std.LawfulEqCmp.eq_of_compare heq)]

theorem getElem?_erase_of_ne {files : Files} {p q : Bytes} (h : p ≠ q) :
    (files.erase p)[q]? = files[q]? := by
  rw [Std.ExtTreeMap.getElem?_erase, if_neg fun heq => h (Std.LawfulEqCmp.eq_of_compare heq)]

/-- The iterator fails, and the dump is removed if it can be. -/
theorem exportAllToJson_of_fails (hopens : OpensDump os exportPath)
    (hmem : collection ∈ e.columnFamilies_) (h : e.Dumps text codec os collection exportPath)
    {n : ℕ} (hfails : os.fails = some n) :
    ∃ status files', status.ok = false ∧
      e.exportAllToJson text codec os files collection exportPath = (.ok status, files') ∧
      files'[final_file exportPath collection]? = files[final_file exportPath collection]? ∧
      (files'[temp_file exportPath collection]? = none ↔ os.removesDump = true) := by
  obtain ⟨cf, hcf⟩ := Option.isSome_iff_exists.mp (mem_iff_contents.mp hmem)
  rw [contents] at hcf
  have htexts := h hopens.1 hopens.2
  rw [walked, cursor, hcf, hfails] at htexts
  obtain ⟨texts, htexts⟩ := exists_texts htexts
  have hne := temp_file_ne_final_file exportPath collection
  rw [exportAllToJson, hopens.1]
  simp only [if_pos hopens.2, hcf, hfails, dumpEntries_true htexts, Option.isSome_some, if_true]
  refine ⟨_, _, rfl, rfl, ?_, ?_⟩
  · split_ifs
    · rw [getElem?_erase_of_ne hne, getElem?_insert_of_ne hne]
    · rw [getElem?_insert_of_ne hne]
  · split_ifs with hremoves
    · exact iff_of_true Std.ExtTreeMap.getElem?_erase_self hremoves
    · rw [Std.ExtTreeMap.getElem?_insert_self]
      exact iff_of_false (by simp) hremoves

/-- The iterator comes to the end, and the dump is renamed if it can be. -/
theorem exportAllToJson_of_not_fails (hopens : OpensDump os exportPath)
    (hmem : collection ∈ e.columnFamilies_) (h : e.Dumps text codec os collection exportPath)
    (hfails : os.fails = none) :
    ∃ status files', e.exportAllToJson text codec os files collection exportPath =
      (.ok status, files') ∧
    (if os.renames then status.ok = true ∧ files'[temp_file exportPath collection]? = none ∧
        ∃ contents, files'[final_file exportPath collection]? = some contents ∧
          IsExport text codec e collection contents
      else status.ok = false ∧ files'[temp_file exportPath collection]? ≠ none) := by
  obtain ⟨cf, hcf⟩ := Option.isSome_iff_exists.mp (mem_iff_contents.mp hmem)
  rw [contents] at hcf
  have htexts := h hopens.1 hopens.2
  rw [walked, hfails] at htexts
  obtain ⟨texts, htexts⟩ := exists_texts htexts
  have hexport : IsExport text codec e collection (arrayText texts) := ⟨texts, htexts, rfl⟩
  have hne := temp_file_ne_final_file exportPath collection
  rw [cursor, hcf] at htexts
  rw [exportAllToJson, hopens.1]
  simp only [if_pos hopens.2, hcf, hfails, dumpEntries_true htexts, Option.isSome_none,
    Bool.false_eq_true, if_false]
  by_cases hrenames : os.renames = true
  · simp only [if_pos hrenames]
    refine ⟨_, _, rfl, rfl, ?_, _, Std.ExtTreeMap.getElem?_insert_self, hexport⟩
    rw [getElem?_insert_of_ne hne.symm]
    exact Std.ExtTreeMap.getElem?_erase_self
  · simp only [if_neg hrenames]
    refine ⟨_, _, rfl, rfl, ?_⟩
    -- the file of the earlier export may be gone by now, and the dump is there
    split_ifs
    · rw [getElem?_erase_of_ne hne.symm, Std.ExtTreeMap.getElem?_insert_self]
      simp
    · rw [Std.ExtTreeMap.getElem?_insert_self]
      simp

/-! ### When nothing is left behind -/

/-- **When an export leaves nothing half done**: no dump is opened; or the collection exists, and
what is left to be done with the dump can be done, unless an entry has no text and the export does
not come that far. -/
theorem exportIsClean_iff : ExportIsClean text codec e os files collection exportPath ↔
    (OpensDump os exportPath → collection ∈ e.columnFamilies_ ∧
      (e.Dumps text codec os collection exportPath →
        if os.fails.isSome then os.removesDump = true else os.renames = true)) := by
  by_cases hopens : OpensDump os exportPath
  · rw [imp_iff_right hopens]
    by_cases hmem : collection ∈ e.columnFamilies_
    · rw [and_iff_right hmem]
      by_cases hdumps : e.Dumps text codec os collection exportPath
      · rw [imp_iff_right hdumps]
        rcases hfails : os.fails with _ | n
        · obtain ⟨status, files', hexport, hends⟩ :=
            exportAllToJson_of_not_fails files hopens hmem hdumps hfails
          rw [Option.isSome_none, if_neg Bool.false_ne_true]
          by_cases hrenames : os.renames = true
          · rw [if_pos hrenames] at hends
            refine iff_of_true (fun status' files₁ h => ?_) hrenames
            obtain ⟨hstatus, rfl⟩ := Prod.mk.inj (hexport.symm.trans h)
            obtain rfl := Except.ok.inj hstatus
            exact ⟨fun hnot => absurd hends.1 (by simp [hnot]), fun _ => ⟨hends.2.2, hends.2.1⟩⟩
          · rw [if_neg hrenames] at hends
            refine iff_of_false (fun h => hends.2 ?_) hrenames
            exact ((h status files' hexport).1 hends.1).2 hopens
        · obtain ⟨status, files', hnot, hexport, hfinal, hdump⟩ :=
            exportAllToJson_of_fails files hopens hmem hdumps hfails
          rw [Option.isSome_some, if_pos rfl, ← hdump]
          constructor
          · exact fun h => ((h status files' hexport).1 hnot).2 hopens
          · intro hgone status' files₁ h
            obtain ⟨hstatus, rfl⟩ := Prod.mk.inj (hexport.symm.trans h)
            obtain rfl := Except.ok.inj hstatus
            exact ⟨fun _ => ⟨hfinal, fun _ => hgone⟩, fun hok => absurd hok (by simp [hnot])⟩
      · -- what is thrown is no status, so nothing is said of the files
        refine iff_of_true (fun status files' h => ?_) fun hc => absurd hc hdumps
        obtain ⟨exn, files₁, hthrown⟩ := exportAllToJson_of_not_dumps files hdumps
        rw [hthrown] at h
        cases (Prod.mk.inj h).1
    · -- without the collection the status is not OK, and the opened file stays
      refine iff_of_false (fun h => ?_) fun hc => hmem hc.1
      have hdump := ((h _ _ (exportAllToJson_of_notMem _ hopens hmem)).1 rfl).2 hopens
      rw [Std.ExtTreeMap.getElem?_insert_self] at hdump
      cases hdump
  · refine iff_of_true (fun status files' h => ?_) fun hc => absurd hc hopens
    obtain ⟨status', hnot, hexport⟩ :=
      @exportAllToJson_of_not_opensDump text codec e os files collection exportPath hopens
    obtain ⟨hstatus, rfl⟩ := Prod.mk.inj (hexport.symm.trans h)
    obtain rfl := Except.ok.inj hstatus
    exact ⟨fun _ => ⟨rfl, fun hc => absurd hc hopens⟩, fun hok => absurd hok (by simp [hnot])⟩

/-- **A collection that does not exist** leaves a dump behind, on a system that does what it is
asked. -/
theorem not_exportIsClean_of_unknown :
    ¬ExportIsClean .standard .standard fresh .calm ∅ (Bytes.ofText "c") (Bytes.ofText "out") := by
  have hopens : OpensDump .calm (Bytes.ofText "out") := ⟨by decide, rfl⟩
  have hmem : Bytes.ofText "c" ∉ fresh.columnFamilies_ := by decide
  intro h
  have hdump := ((h _ _ (exportAllToJson_of_notMem _ hopens hmem)).1 rfl).2 hopens
  rw [Std.ExtTreeMap.getElem?_insert_self] at hdump
  cases hdump

end StorageEngine

end AnuDB
