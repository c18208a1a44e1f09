import AnuDB.Database

/-!
# Dropping the indexes of a collection

The destructor of a collection, and `dropCollection`, drop its indexes one after the
other and look at no status. RocksDB may refuse each drop for itself; the indexes it
refuses to drop are the ones that are left (`AnuDB.StorageEngine.getIndexNames_dropIndexes`),
and the contents are what they were exactly if it refuses all of them
(`AnuDB.StorageEngine.contents_dropIndexes_iff`).

Runs are in worlds in which RocksDB refuses what it is said to refuse and the process does
not stop (`AnuDB.World.refusing`).
-/

namespace AnuDB

open Effect

/-- The indexes of a list whose drops are refused, when the calls meet these refusals. -/
def refused : Stream' (Option Bytes) → List Bytes → List Bytes
  | _, [] => []
  | r, index :: indexes =>
    if r.head.isSome then index :: refused r.tail indexes else refused r.tail indexes

theorem refused_sublist (r : Stream' (Option Bytes)) (indexes : List Bytes) :
    (refused r indexes).Sublist indexes := by
  induction indexes generalizing r with
  | nil => exact List.Sublist.refl _
  | cons index indexes ih =>
    rw [refused]
    split_ifs
    · exact (ih r.tail).cons_cons index
    · exact (ih r.tail).cons index

/-- All drops are refused if none of the calls goes through. -/
theorem refused_eq_cons_iff {r : Stream' (Option Bytes)} {index : Bytes} {indexes : List Bytes} :
    refused r (index :: indexes) = index :: indexes ↔
      r.head.isSome ∧ refused r.tail indexes = indexes := by
  rw [refused]
  split_ifs with hhead
  · simp [hhead]
  · refine iff_of_false (fun h => ?_) fun h => hhead h.1
    have hlength := (refused_sublist r.tail indexes).length_le
    rw [h, List.length_cons] at hlength
    omega

namespace StorageEngine

variable {e e' : StorageEngine} {c n : Bytes} {r : Stream' (Option Bytes)} {indexes : List Bytes}

/-! ### What is the same -/

/-- **The documents and the indexes of every collection are the same.** -/
def Unchanged (e e' : StorageEngine) : Prop :=
  e'.getCollectionNames = e.getCollectionNames ∧ ∀ c, e'.contents c = e.contents c ∧
    e'.getIndexNames c = e.getIndexNames c ∧
    ∀ f ∈ e.getIndexNames c, e'.contents (indexFamily c f) = e.contents (indexFamily c f)

theorem unchanged_iff : e.Unchanged e' ↔ e'.contents = e.contents := by
  constructor
  · exact fun h => funext fun c => (h.2 c).1
  · intro h
    have hfamilies : e'.columnFamilies_ = e.columnFamilies_ :=
      Std.ExtTreeMap.ext_getElem? fun n => congrFun h n
    refine ⟨by rw [getCollectionNames, getCollectionNames, hfamilies], fun c => ⟨by rw [h], ?_, ?_⟩⟩
    · rw [getIndexNames, getIndexNames, hfamilies]
    · exact fun f _ => by rw [h]

theorem mem_congr (h : e'.contents n = e.contents n) :
    n ∈ e'.columnFamilies_ ↔ n ∈ e.columnFamilies_ := by
  rw [mem_iff_contents, mem_iff_contents, h]

/-! ### The drops -/

/-- The engine after the indexes of a list are dropped, where the drops meet these
refusals. -/
def dropIndexes (e : StorageEngine) (c : Bytes) : Stream' (Option Bytes) → List Bytes → StorageEngine
  | _, [] => e
  | r, index :: indexes =>
    dropIndexes (e.dropCollection r.head (indexFamily c index)).2 c r.tail indexes

/-- A drop that is refused. -/
theorem dropCollection_some {text : Bytes} : (e.dropCollection (some text) n).2 = e := by
  simp only [dropCollection]
  split_ifs <;> rfl

/-- A drop that goes through. -/
theorem dropCollection_none (hn : n ∈ e.columnFamilies_) (hdefault : n ≠ kDefaultColumnFamilyName) :
    e.dropCollection none n = (.OK, e.withFamilies (e.columnFamilies_.erase n)) := by
  simp only [dropCollection, if_pos hn, if_neg hdefault]

/-- An index that is dropped is not listed any more, and the others are. -/
theorem mem_getIndexNames_erase {f g : Bytes} (hf : indexFamily c f ∈ e.columnFamilies_) :
    g ∈ (e.withFamilies (e.columnFamilies_.erase (indexFamily c f))).getIndexNames c ↔
      g ≠ f ∧ g ∈ e.getIndexNames c := by
  rw [mem_getIndexNames, mem_getIndexNames, mem_erase_family hf, and_assoc]
  exact and_congr_left' ⟨fun h heq => h (by rw [heq]), fun h heq => h (indexFamily_injective heq)⟩

/-- What is listed after the drops: what was not to be dropped, and what was refused. -/
theorem mem_getIndexNames_dropIndexes {g : Bytes} (hnodup : indexes.Nodup)
    (hlisted : indexes ⊆ e.getIndexNames c) : g ∈ (e.dropIndexes c r indexes).getIndexNames c ↔
      g ∈ e.getIndexNames c ∧ (g ∈ indexes → g ∈ refused r indexes) := by
  induction indexes generalizing e r with
  | nil => simp [dropIndexes]
  | cons f indexes ih =>
    obtain ⟨hf, hnodup⟩ := List.nodup_cons.mp hnodup
    obtain ⟨hfamily, -⟩ := mem_getIndexNames.mp (hlisted List.mem_cons_self)
    have hlisted' : indexes ⊆ e.getIndexNames c := fun i hi => hlisted (List.mem_cons_of_mem f hi)
    have hsub := (refused_sublist r.tail indexes).subset
    rw [dropIndexes, refused]
    rcases hhead : r.head with _ | text
    · -- the index goes
      have hdefault := ne_default_of_delimited (delimiter_infix_indexFamily c f)
      have hrest : indexes ⊆ (e.withFamilies
          (e.columnFamilies_.erase (indexFamily c f))).getIndexNames c := fun i hi =>
        (mem_getIndexNames_erase hfamily).mpr ⟨fun h => hf (h ▸ hi), hlisted' hi⟩
      rw [dropCollection_none hfamily hdefault, ih hnodup hrest, mem_getIndexNames_erase hfamily,
        if_neg (by simp), List.mem_cons]
      constructor
      · rintro ⟨⟨hne, hg⟩, himp⟩
        exact ⟨hg, fun h => himp (h.resolve_left hne)⟩
      · rintro ⟨hg, himp⟩
        exact ⟨⟨fun h => hf (hsub (h ▸ himp (Or.inl h))), hg⟩, fun h => himp (Or.inr h)⟩
    · rw [dropCollection_some, ih hnodup hlisted', if_pos (by simp), List.mem_cons, List.mem_cons]
      refine and_congr_right fun _ => ⟨fun himp h => h.imp id himp, fun himp h => ?_⟩
      exact (himp (Or.inr h)).resolve_left fun heq => hf (heq ▸ h)

/-- Listed indexes are in the order of their families. -/
theorem pairwise_getIndexNames (e : StorageEngine) (c : Bytes) :
    (e.getIndexNames c).Pairwise fun f g => indexFamily c f < indexFamily c g := by
  refine List.Pairwise.filterMap _ ?_ Std.ExtTreeMap.ordered_keys
  intro n n' hlt f hf g hg
  have hfamily {n f : Bytes} (h : ((splitIndexName n).bind fun pair =>
      if pair.1 = c then some pair.2 else none) = some f) : n = indexFamily c f := by
    obtain ⟨⟨a, i⟩, hsplit, hif⟩ := Option.bind_eq_some_iff.mp h
    simp only [Option.ite_none_right_eq_some, Option.some.injEq] at hif
    obtain ⟨rfl, rfl⟩ := hif
    exact (splitIndexName_eq_some_iff.mp hsplit).1
  rw [← hfamily hf, ← hfamily hg]
  exact Bytes.compare_eq_lt.mp hlt

/-- A list of indexes is told by what is in it. -/
theorem getIndexNames_eq_of_mem_iff {l : List Bytes}
    (hl : l.Pairwise fun f g => indexFamily c f < indexFamily c g)
    (h : ∀ g, g ∈ e.getIndexNames c ↔ g ∈ l) : e.getIndexNames c = l := by
  have hnodup : l.Nodup := by
    refine hl.imp ?_
    rintro f _ hlt rfl
    exact lt_irrefl _ hlt
  have hperm : (e.getIndexNames c).Perm l :=
    (List.perm_ext_iff_of_nodup (nodup_getIndexNames e c) hnodup).mpr h
  refine hperm.eq_of_pairwise ?_ (pairwise_getIndexNames e c) hl
  exact fun f g _ _ hfg hgf => absurd (hfg.trans hgf) (lt_irrefl _)

/-- **The indexes that are left** are those whose drops are refused. -/
theorem getIndexNames_dropIndexes :
    (e.dropIndexes c r (e.getIndexNames c)).getIndexNames c = refused r (e.getIndexNames c) := by
  have hsub := refused_sublist r (e.getIndexNames c)
  refine getIndexNames_eq_of_mem_iff ((pairwise_getIndexNames e c).sublist hsub) fun g => ?_
  rw [mem_getIndexNames_dropIndexes (e.nodup_getIndexNames c) (List.Subset.refl _)]
  exact ⟨fun h => h.2 h.1, fun h => ⟨hsub.subset h, fun _ => h⟩⟩

/-- Drops that are all refused leave the engine as it is. -/
theorem dropIndexes_of_refused (h : refused r indexes = indexes) :
    e.dropIndexes c r indexes = e := by
  induction indexes generalizing r with
  | nil => rfl
  | cons index indexes ih =>
    obtain ⟨hhead, htail⟩ := refused_eq_cons_iff.mp h
    obtain ⟨text, htext⟩ := Option.isSome_iff_exists.mp hhead
    rw [dropIndexes, htext, dropCollection_some, ih htail]

/-- Families that are no indexes of the collection are left alone. -/
theorem contents_dropIndexes (hn : ∀ f, n ≠ indexFamily c f) :
    (e.dropIndexes c r indexes).contents n = e.contents n := by
  induction indexes generalizing e r with
  | nil => rfl
  | cons index indexes ih =>
    rw [dropIndexes, ih]
    exact contents_exec (x := .dropCollection (indexFamily c index)) (fun h => hn index h.symm) r.head

/-- No family comes. -/
theorem mem_of_mem_dropIndexes (h : n ∈ (e.dropIndexes c r indexes).columnFamilies_) :
    n ∈ e.columnFamilies_ := by
  induction indexes generalizing e r with
  | nil => exact h
  | cons index indexes ih =>
    rw [dropIndexes] at h
    have hn := ih h
    rcases hhead : r.head with _ | text
    · rw [hhead] at hn
      simp only [dropCollection] at hn
      split_ifs at hn with hmem hdefault
      · exact hn
      · exact ((mem_erase_family hmem).mp hn).2
      · exact hn
    · rwa [hhead, dropCollection_some] at hn

/-- **Dropping the indexes changes nothing** exactly if every drop is refused. -/
theorem contents_dropIndexes_iff :
    (e.dropIndexes c r (e.getIndexNames c)).contents = e.contents ↔
      refused r (e.getIndexNames c) = e.getIndexNames c := by
  refine ⟨fun h => ?_, fun h => by rw [dropIndexes_of_refused h]⟩
  rw [← getIndexNames_dropIndexes]
  exact getIndexNames_congr (fun n => mem_congr (congrFun h n)) c

end StorageEngine

/-! ### The runs -/

namespace Engine

variable {α β : Type} {e : StorageEngine} {r : Stream' (Option Bytes)}

/-- A program that returns, and what comes after it. -/
theorem run_bind_of_ret {p : Engine α} {k : α → Engine β} {a : α} {w w' : World}
    (h : p.run w = (.ret a, w')) : (p >>= k).run w = (k a).run w' := by
  rw [run] at h
  rw [run, Prog.run_bind, h]

/-- A call, where RocksDB refuses what it is said to refuse. -/
theorem run_call_bind_refusing (x : Call) (k : x.Reply → Engine α) :
    (Prog.perform x >>= k : Engine α).run (.refusing e r) =
      (k (e.exec r.head x).1).run (.refusing (e.exec r.head x).2 r.tail) := by
  simp only [run, Prog.run_perform_bind, World.handle_refusing]

/-- Where RocksDB refuses what it is said to refuse, the process does not stop. -/
theorem run_refusing_ne_stopped (p : Engine α) (e : StorageEngine) (r : Stream' (Option Bytes)) :
    (p.run (.refusing e r)).1 ≠ .stopped := by
  induction p generalizing e r with
  | ret a => exact fun h => by cases h
  | raise exn => exact fun h => by cases h
  | call x k ih =>
    change ((Prog.perform x >>= k : Engine α).run (.refusing e r)).1 ≠ .stopped
    rw [run_call_bind_refusing]
    exact ih _ _ _

end Engine

namespace Collection

variable {c : Collection} {e : StorageEngine} {r : Stream' (Option Bytes)}

theorem run_deleteIndexes (indexes : List Bytes) : (c.deleteIndexes indexes).run (.refusing e r) =
    (.ret (), .refusing (e.dropIndexes c.name_ r indexes) (r.drop indexes.length)) := by
  induction indexes generalizing e r with
  | nil => rfl
  | cons index indexes ih =>
    rw [deleteIndexes, deleteIndex, Engine.dropCollection, Engine.run_call_bind_refusing, ih]
    rfl

/-- What the destructor leaves. -/
theorem run_destroy : c.destroy.run (.refusing e r) =
    (.ret (), .refusing (e.dropIndexes c.name_ r.tail (e.getIndexNames c.name_))
      (r.tail.drop (e.getIndexNames c.name_).length)) := by
  rw [destroy, Engine.getIndexNames, Engine.run_call_bind_refusing]
  exact run_deleteIndexes _

end Collection

end AnuDB
