import AnuDB.Index

/-!
# Are document calls atomic?

A document call writes one engine call at a time, with no transaction around them, so a
call that stops in the middle leaves its first writes behind. Whether that is visible
is settled here for every state, every call and every way to stop: after the call the
collection and its indexes are as before, or as after a complete successful call
(`AnuDB.DocumentCall.Atomic`), if and only if what landed changes nothing, or the call
can be completed and what is missing changes nothing
(`AnuDB.DocumentCall.atomic_iff`). A write changes nothing if what it would write is
there already (`AnuDB.StorageEngine.Holds`).
-/

namespace AnuDB

open Effect

namespace StorageEngine

/-- The document family and the index families of a collection have the same contents. -/
def SameContents (c : Bytes) (e e' : StorageEngine) : Prop :=
  e.contents c = e'.contents c ∧
    ∀ f ∈ e.getIndexNames c, e.contents (indexFamily c f) = e'.contents (indexFamily c f)

/-- **What a write would write is there already.** -/
def Holds (e : StorageEngine) (x : Write) : Prop := e.lookup x.family x.key = x.value

theorem holds_iff_idle {e : StorageEngine} {x : Write} (hx : x.family ∈ e.columnFamilies_) :
    e.Holds x ↔ Batch.Idle e.contents x.update := by
  obtain ⟨cf, hcf⟩ := Option.isSome_iff_exists.mp (mem_iff_contents.mp hx)
  rw [Holds, Batch.Idle, lookup, Write.update, hcf, Option.bind_some]
  change cf[x.key]? = x.value ↔ some (x.change cf) = some cf
  rw [Option.some.injEq]
  constructor
  · intro h
    refine Std.ExtTreeMap.ext_getElem? fun key => ?_
    rw [Write.getElem?_change]
    split_ifs with hkey
    · rw [hkey, h]
    · rfl
  · intro h
    rw [← h, Write.getElem?_change, if_pos rfl]

end StorageEngine

namespace DocumentCall

variable {codec : Codec} {c : Collection} {w : World} {call : DocumentCall}

/-- **After the call, the collection and its indexes are as before it, or as after a
complete successful call** in the same state. -/
def Atomic (codec : Codec) (c : Collection) (w : World) (call : DocumentCall) : Prop :=
  let after := ((call.perform codec c).run w).2.engine
  StorageEngine.SameContents c.name_ w.engine after ∨
    ∃ fates status complete, (call.perform codec c).run ⟨w.engine, fates⟩ = (.ret status, complete) ∧
      status.ok = true ∧ StorageEngine.SameContents c.name_ complete.engine after

/-- Two outcomes of writes to the families of a collection are the same to the collection
exactly when they are the same. -/
theorem sameContents_iff {e : StorageEngine} {ws vs : List Write}
    (hws : ws.map Write.family ⊆ families c e) (hvs : vs.map Write.family ⊆ families c e) :
    StorageEngine.SameContents c.name_ (e.applyAll ws) (e.applyAll vs) ↔
      (e.applyAll ws).contents = (e.applyAll vs).contents := by
  refine ⟨fun h => ?_, fun h => ⟨by rw [h], fun f _ => by rw [h]⟩⟩
  funext n
  have hplaces (xs : List Write) (hxs : xs.map Write.family ⊆ families c e)
      (hn : n ∉ families c e) : (e.applyAll xs).contents n = e.contents n := by
    rw [StorageEngine.contents_applyAll]
    refine Batch.apply_of_not_mem fun hmem => hn (hxs ?_)
    simpa [Write.update] using hmem
  by_cases hn : n ∈ families c e
  · rw [families, List.mem_append, List.mem_singleton, List.mem_map] at hn
    rcases hn with ⟨f, hf, rfl⟩ | rfl
    · exact h.2 f (by rwa [StorageEngine.getIndexNames_applyAll])
    · exact h.1
  · rw [hplaces ws hws hn, hplaces vs hvs hn]

/-- **When a document call is atomic.** -/
theorem atomic_iff : call.Atomic codec c w ↔
    (∀ x ∈ call.landed codec c w, w.engine.Holds x) ∨
    ∃ missing, Completes codec c w.engine call (call.landed codec c w ++ missing) ∧
      ∀ x ∈ missing, w.engine.Holds x := by
  set ls := call.landed codec c w with hls
  have hlsFamilies : (ls.map Write.family).Sublist (families c w.engine) := landed_families call
  have hdistinct (ws : List Write) (hws : (ws.map Write.family).Sublist (families c w.engine)) :
      Batch.Distinct (ws.map Write.update) := by
    rw [Batch.Distinct, List.map_map]
    exact hws.nodup (nodup_families c w.engine)
  have hself : StorageEngine.SameContents c.name_ w.engine (w.engine.applyAll ls) ↔
      ∀ x ∈ ls, w.engine.Holds x := by
    have hnil : StorageEngine.SameContents c.name_ (w.engine.applyAll []) (w.engine.applyAll ls) ↔ _ :=
      sameContents_iff (List.nil_subset _) hlsFamilies.subset
    rw [StorageEngine.applyAll_nil, StorageEngine.contents_applyAll, eq_comm,
      Batch.apply_eq_self_iff (hdistinct ls hlsFamilies), List.forall_mem_map] at hnil
    exact hnil.trans (forall₂_congr fun x hx =>
      (StorageEngine.holds_iff_idle (mem_of_mem_landed hx)).symm)
  have hmissing (missing : List Write) (h : Completes codec c w.engine call (ls ++ missing)) :
      StorageEngine.SameContents c.name_ (w.engine.applyAll (ls ++ missing)) (w.engine.applyAll ls) ↔
        ∀ x ∈ missing, w.engine.Holds x := by
    have hfamilies : ((ls ++ missing).map Write.family).Sublist (families c w.engine) := by
      have hsub := steps_families h.1
      rwa [writesOf_map_ok] at hsub
    have hd := hdistinct _ hfamilies
    rw [List.map_append] at hd
    rw [sameContents_iff hfamilies.subset hlsFamilies.subset, StorageEngine.contents_applyAll,
      StorageEngine.contents_applyAll, List.map_append, eq_comm, Batch.apply_append_eq_iff hd,
      List.forall_mem_map]
    exact forall₂_congr fun x hx =>
      (StorageEngine.holds_iff_idle (h.2 x (List.mem_append_right ls hx))).symm
  rw [Atomic, run_engine, ← hls, hself, exists_complete_iff
    (P := fun e => StorageEngine.SameContents c.name_ e (w.engine.applyAll ls))]
  refine or_congr_right ⟨?_, ?_⟩
  · -- a list of writes that completes the call begins with what landed
    rintro ⟨ws, hcomplete, hsame⟩
    obtain ⟨rest, hrest⟩ := landed_beginning hcomplete.1
    obtain ⟨ls', missing, rfl, hls', -⟩ := List.map_eq_append_iff.mp hrest.symm
    obtain rfl : ls' = ls := List.map_injective_iff.mpr (fun _ _ => Except.ok.inj) hls'
    refine ⟨missing, hcomplete, (hmissing missing hcomplete).mp ?_⟩
    exact hsame
  · rintro ⟨missing, hcomplete, hholds⟩
    exact ⟨_, hcomplete, (hmissing missing hcomplete).mpr hholds⟩

/-- A collection with two indexes and no documents. -/
def twoIndexes : StorageEngine :=
  Operation.afterAll .standard .fresh [.createCollection letterC.name_,
    .createIndex letterC (Bytes.ofText "f"), .createIndex letterC (Bytes.ofText "g")]

/-- A document with both fields is created. -/
def createBoth : DocumentCall :=
  .create ⟨0, fun _ => 0⟩ ⟨Bytes.ofText "a",
    .object [(Bytes.ofText "f", .integer 1), (Bytes.ofText "g", .integer 2)]⟩

/-- RocksDB refuses the entry in the second index. -/
def secondRefused : World :=
  ⟨twoIndexes, Stream'.cons .ok (Stream'.cons .ok (Stream'.cons (.fail []) (Stream'.const .ok)))⟩

/-- **A refusal between two writes leaves a mixture**: the entry in the first index is
there, and the document is not. -/
theorem not_atomic_of_refusal :
    Reachable .standard twoIndexes ∧ ¬createBoth.Atomic .standard letterC secondRefused := by
  refine ⟨Reachable.fresh.afterAll _, ?_⟩
  set after := ((createBoth.perform .standard letterC).run secondRefused).2.engine with hafter
  have hentry : after.lookup (indexFamily letterC.name_ (Bytes.ofText "f"))
      (encodeIntKey .standard 1 ++ separator ++ Bytes.ofText "a") = some (Bytes.ofText "a") := by
    decide +kernel
  have hempty : after.contents letterC.name_ = some ∅ := by decide +kernel
  rintro (⟨-, hindexes⟩ | hcomplete)
  · have hbefore : twoIndexes.lookup (indexFamily letterC.name_ (Bytes.ofText "f"))
        (encodeIntKey .standard 1 ++ separator ++ Bytes.ofText "a") = none := by decide +kernel
    have hsame := hindexes (Bytes.ofText "f") (by decide +kernel)
    rw [StorageEngine.lookup, ← hsame] at hentry
    exact absurd (hbefore.symm.trans hentry) (by simp)
  · obtain ⟨ws, hcomplete, hsame, -⟩ := (exists_complete_iff (P := fun e =>
      StorageEngine.SameContents letterC.name_ e after)).mp hcomplete
    rcases completes_cases hcomplete with ⟨doc, -, hsteps⟩ | ⟨_, _, hdelete, -⟩
    · -- a complete call leaves a document
      have hbatch := batch_of_steps hsteps
      have hstored := hbatch.lookup_document (hcomplete.2 _ ((hbatch _).mpr (Or.inr rfl)))
      rw [StorageEngine.lookup, hsame] at hstored
      exact absurd ((StorageEngine.lookup_of_empty hempty).symm.trans hstored) (by simp)
    · exact absurd hdelete (by simp [createBoth])

end DocumentCall

end AnuDB
