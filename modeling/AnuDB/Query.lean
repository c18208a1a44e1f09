import AnuDB.Collection
import AnuDB.Lib.Scan

/-!
# Queries

`findDocument` runs the operators of a filter against the indexes. A comparison is a scan
of one index from the key of its operand: `$eq` takes the entries whose keys begin with
the operand's key and `#`, `$gt` what comes after those and `$lt` what comes before them,
downwards, and `$orderBy` all entries, in one order or the other. So the four cut the
index into one order (`AnuDB.StorageEngine.scans_agree`), whatever is in it.

An index is read through an iterator of RocksDB and nothing is written, so a query is a
function of the state. What an unordered set of the code is iterated in is not specified;
here it is the order of insertion.
-/

namespace AnuDB

namespace StorageEngine

variable (e : StorageEngine)

/-! ### Scans of an index -/

/-- A scan of a family: the values of the entries it walks go to the end of the ids. -/
def fetchDocIds (scan : List (Bytes × Bytes) → List (Bytes × Bytes)) (collection : Bytes)
    (docIds : List Bytes) : Status × List Bytes :=
  match e.columnFamilies_[collection]? with
  | none => (.notFound (Bytes.ofText "Collection not found: " ++ collection), docIds)
  | some cf => (.OK, docIds ++ (scan cf.toList).map Prod.snd)

/-- `StorageEngine::fetchDocIdsByOrder`: upwards for `asc`, downwards for anything else. -/
def fetchDocIdsByOrder (collection value : Bytes) (docIds : List Bytes) : Status × List Bytes :=
  e.fetchDocIds (fun entries => if value = Bytes.ofText "asc" then entries else entries.reverse)
    collection docIds

/-- `StorageEngine::fetchDocIdsForEqual`. -/
def fetchDocIdsForEqual (collection key : Bytes) (docIds : List Bytes) : Status × List Bytes :=
  e.fetchDocIds (Scan.equal key) collection docIds

/-- `StorageEngine::fetchDocIdsForGreater`. -/
def fetchDocIdsForGreater (collection key : Bytes) (docIds : List Bytes) : Status × List Bytes :=
  e.fetchDocIds (Scan.greater key) collection docIds

/-- The byte a key is read up to. -/
def hash : UInt8 := 35

/-- `StorageEngine::fetchDocIdsForLesser`: every key is read up to a `#`, whether there is
one or not. -/
def fetchDocIdsForLesser (collection key : Bytes) (docIds : List Bytes) :
    Except Exn (Status × List Bytes) :=
  if (Scan.lesser key (e.cursor collection)).all fun x => x.1.contains hash then
    .ok (e.fetchDocIds (Scan.lesser key) collection docIds)
  else .error (.undefined .pastKey)

/-- The entries a cursor walks are in the order of their keys. -/
theorem sorted_cursor (collection : Bytes) : Scan.Sorted (e.cursor collection) := by
  rw [cursor]
  rcases e.columnFamilies_[collection]? with _ | cf
  · exact List.Pairwise.nil
  · exact Std.ExtTreeMap.ordered_keys_toList.imp fun h => Bytes.compare_eq_lt.mp h

/-- A scan of a family that is there. -/
theorem fetchDocIds_of_mem {collection : Bytes} (h : collection ∈ e.columnFamilies_)
    (scan : List (Bytes × Bytes) → List (Bytes × Bytes)) (docIds : List Bytes) :
    e.fetchDocIds scan collection docIds =
      (.OK, docIds ++ (scan (e.cursor collection)).map Prod.snd) := by
  obtain ⟨cf, hcf⟩ := Option.isSome_iff_exists.mp (Std.ExtTreeMap.mem_iff_isSome_getElem?.mp h)
  rw [fetchDocIds, cursor, hcf]

theorem fetchDocIdsForLesser_of_forall {collection : Bytes}
    (h : ∀ x ∈ e.cursor collection, hash ∈ x.1) (key : Bytes) (docIds : List Bytes) :
    e.fetchDocIdsForLesser collection key docIds =
      .ok (e.fetchDocIds (Scan.lesser key) collection docIds) := by
  refine if_pos (List.all_eq_true.mpr fun x hx => ?_)
  rw [List.contains_iff_mem]
  exact h x ((Scan.mem_lesser (e.sorted_cursor collection)).mp hx).1

/-- **The four scans of an index cut it into one order**: what is less, downwards, what is
equal and what is greater are, put back together, all entries upwards; and downwards they
are the same the other way round. -/
theorem scans_agree {e : StorageEngine} {index : Bytes} (hindex : index ∈ e.columnFamilies_)
    (hkeys : ∀ x ∈ e.cursor index, hash ∈ x.1) (operand : Bytes) :
    ∃ lt eq gt asc : List Bytes,
      e.fetchDocIdsForLesser index (operand ++ separator) [] = .ok (.OK, lt) ∧
      e.fetchDocIdsForEqual index (operand ++ separator) [] = (.OK, eq) ∧
      e.fetchDocIdsForGreater index (operand ++ separator) [] = (.OK, gt) ∧
      e.fetchDocIdsByOrder index (Bytes.ofText "asc") [] = (.OK, asc) ∧
      lt.reverse ++ eq ++ gt = asc ∧
      ∀ direction, direction ≠ Bytes.ofText "asc" →
        e.fetchDocIdsByOrder index direction [] = (.OK, asc.reverse) := by
  have hscan := e.fetchDocIds_of_mem hindex
  refine ⟨(Scan.lesser (operand ++ separator) (e.cursor index)).map Prod.snd, _, _, _, ?_,
    hscan _ _, hscan _ _, hscan _ _, ?_, fun direction hne => ?_⟩
  · rw [e.fetchDocIdsForLesser_of_forall hkeys, hscan]
    rfl
  · have hcut := Scan.reverse_lesser_append_equal_append_greater (p := operand ++ separator)
      (e.sorted_cursor index)
    simp only [List.nil_append, if_pos]
    rw [← List.map_reverse, ← List.map_append, ← List.map_append, hcut]
  · rw [fetchDocIdsByOrder, hscan, if_neg hne]
    simp only [List.nil_append, if_pos, List.map_reverse]

/-- An index of three strings, one of which is the beginning of another. -/
def threeEntries : StorageEngine :=
  [(Bytes.ofText "a#1", Bytes.ofText "1"), (Bytes.ofText "b#2", Bytes.ofText "2"),
    (Bytes.ofText "b#c#3", Bytes.ofText "c#3")].foldl
    (fun e x => (e.put none (Bytes.ofText "c__index__f") x.1 x.2).2)
    (fresh.createCollection none (Bytes.ofText "c__index__f")).2

theorem scans_agree_threeEntries :
    ∃ lt eq gt asc : List Bytes,
      threeEntries.fetchDocIdsForLesser (Bytes.ofText "c__index__f")
        (Bytes.ofText "b" ++ separator) [] = .ok (.OK, lt) ∧
      threeEntries.fetchDocIdsForEqual (Bytes.ofText "c__index__f")
        (Bytes.ofText "b" ++ separator) [] = (.OK, eq) ∧
      threeEntries.fetchDocIdsForGreater (Bytes.ofText "c__index__f")
        (Bytes.ofText "b" ++ separator) [] = (.OK, gt) ∧
      threeEntries.fetchDocIdsByOrder (Bytes.ofText "c__index__f") (Bytes.ofText "asc") [] =
        (.OK, asc) ∧
      lt.reverse ++ eq ++ gt = asc ∧ asc.length = 3 := by
  have hindex : Bytes.ofText "c__index__f" ∈ threeEntries.columnFamilies_ := by decide +kernel
  have hkeys : ∀ x ∈ threeEntries.cursor (Bytes.ofText "c__index__f"), hash ∈ x.1 := by
    decide +kernel
  obtain ⟨lt, eq, gt, asc, hlt, heq, hgt, hasc, hcut, -⟩ :=
    scans_agree hindex hkeys (Bytes.ofText "b")
  refine ⟨lt, eq, gt, asc, hlt, heq, hgt, hasc, hcut, ?_⟩
  have hlength : (threeEntries.fetchDocIdsByOrder (Bytes.ofText "c__index__f")
    (Bytes.ofText "asc") []).2.length = 3 := by decide +kernel
  rwa [hasc] at hlength

end StorageEngine

/-! ### The operators -/

namespace Collection

variable (codec : Codec) (c : Collection) (e : StorageEngine)

/-- `Collection::findDocumentsUsingEq`. -/
def findDocumentsUsingEq (eqOps : Json) (indexes docIds : List Bytes) :
    Except Exn (Status × List Bytes) := do
  let (key, operand) ← eqOps.firstEntry
  let value ← parseValue codec operand
  if key ∈ indexes then
    return e.fetchDocIdsForEqual (c.getIndexCfName key) (value ++ separator) docIds
  else
    return (.invalidArgument
      (Bytes.ofText "Specified key is not indexed, please create index for " ++ key), docIds)

/-- What `$lt` and `$gt` answer to an operand whose key is empty. -/
def unparsed : Status := .invalidArgument (Bytes.ofText "Unable to parse value of operator..")

/-- `Collection::findDocumentsUsingLt`: the list of indexes is not looked at. -/
def findDocumentsUsingLt (ltOps : Json) (docIds : List Bytes) :
    Except Exn (Status × List Bytes) := do
  let (key, operand) ← ltOps.firstEntry
  let value ← parseValue codec operand
  if value = [] then return (unparsed, docIds)
  else e.fetchDocIdsForLesser (c.getIndexCfName key) (value ++ separator) docIds

/-- `Collection::findDocumentsUsingGt`. -/
def findDocumentsUsingGt (gtOps : Json) (docIds : List Bytes) :
    Except Exn (Status × List Bytes) := do
  let (key, operand) ← gtOps.firstEntry
  let value ← parseValue codec operand
  if value = [] then return (unparsed, docIds)
  else return e.fetchDocIdsForGreater (c.getIndexCfName key) (value ++ separator) docIds

/-- One operator inside `$and` and `$or`, into a list of its own. -/
def findNested (indexes : List Bytes) (op : Bytes) (ops : Json) :
    Except Exn (Status × List Bytes) :=
  if op = Bytes.ofText "$eq" then c.findDocumentsUsingEq codec e ops indexes []
  else if op = Bytes.ofText "$gt" then c.findDocumentsUsingGt codec e ops []
  else if op = Bytes.ofText "$lt" then c.findDocumentsUsingLt codec e ops []
  else .ok (.invalidArgument (Bytes.ofText "Not supported operator is passed"), [])

/-- The text up to its first NUL: what becomes of a string that goes through `data()`. -/
def cString (s : Bytes) : Bytes := s.takeWhile fun b => b ≠ 0

/-- `insert` into an unordered set. -/
def insertIds (set docIds : List Bytes) : List Bytes :=
  docIds.foldl (fun set docId => if docId ∈ set then set else set ++ [docId]) set

/-- What `$and` does with the ids of one more operator: the first loop erases ids that
are not there, and an empty set is taken for one that has not been begun. -/
def intersectIds (set docIds : List Bytes) : List Bytes :=
  if set.isEmpty then insertIds [] docIds
  else
    let set := docIds.foldl (fun set docId => if docId ∈ set then set else set.erase docId) set
    set.filter fun docId => docId ∈ docIds

/-- The operators of one clause, one after the other; an operator that reports an error
ends the query, with nothing. -/
def findInClause (combine : List Bytes → List Bytes → List Bytes) (indexes : List Bytes) :
    List (Bytes × Json) → List Bytes → Except Exn (Option (List Bytes))
  | [], set => .ok (some set)
  | (op, ops) :: elements, set => do
    let (status, docIds) ← c.findNested codec e indexes (cString op) ops
    if status.ok then findInClause combine indexes elements (combine set docIds) else return none

/-- The clauses of `$and` and `$or`. -/
def findInClauses (combine : List Bytes → List Bytes → List Bytes) (indexes : List Bytes) :
    List Json → List Bytes → Except Exn (Option (List Bytes))
  | [], set => .ok (some set)
  | item :: items, set => do
    let elements ← item.entries
    match ← c.findInClause codec e combine indexes elements set with
    | none => return none
    | some set => findInClauses combine indexes items set

/-- `$and` and `$or`: the set they end with goes to the end of the ids. Operands that are
no array are ignored. -/
def findCombined (combine : List Bytes → List Bytes → List Bytes) (indexes : List Bytes)
    (ops : Json) (docIds : List Bytes) : Except Exn (Option (List Bytes)) :=
  match ops with
  | .array items => do
    return (← c.findInClauses codec e combine indexes items []).map fun set => docIds ++ set
  | _ => .ok (some docIds)

/-- `$orderBy`. -/
def findOrdered (orderbyOps : Json) (docIds : List Bytes) : Except Exn (Status × List Bytes) := do
  let (key, direction) ← orderbyOps.firstEntry
  let value ← direction.getString
  return e.fetchDocIdsByOrder (c.getIndexCfName key) value docIds

/-- One member of a filter. Statuses are only logged here; none is where the query ends
with nothing. -/
def findStep (indexes : List Bytes) (op : Bytes) (ops : Json) (docIds : List Bytes) :
    Except Exn (Option (List Bytes)) :=
  if op = Bytes.ofText "$eq" then do
    return some (← c.findDocumentsUsingEq codec e ops indexes docIds).2
  else if op = Bytes.ofText "$gt" then do
    return some (← c.findDocumentsUsingGt codec e ops docIds).2
  else if op = Bytes.ofText "$lt" then do
    return some (← c.findDocumentsUsingLt codec e ops docIds).2
  else if op = Bytes.ofText "$and" then c.findCombined codec e intersectIds indexes ops docIds
  else if op = Bytes.ofText "$or" then c.findCombined codec e insertIds indexes ops docIds
  else if op = Bytes.ofText "$orderBy" then do
    return some (← c.findOrdered e ops docIds).2
  else .ok (some docIds)

/-- The members of a filter, one after the other. -/
def findAll (indexes : List Bytes) : List (Bytes × Json) → List Bytes → Except Exn (List Bytes)
  | [], docIds => .ok docIds
  | (op, ops) :: members, docIds => do
    match ← c.findStep codec e indexes op ops docIds with
    | none => return []
    | some docIds => findAll indexes members docIds

/-- `Collection::findDocument`. -/
def findDocument (filterOption : Json) : Except Exn (List Bytes) := do
  c.findAll codec e (e.getIndexNames c.name_) (← filterOption.entries) []

/-! ### What a query reports -/

/-- Whether a scan reports OK. -/
def reports (x : Except Exn (Status × List Bytes)) : Bool :=
  match x with
  | .ok (status, _) => status.ok
  | .error _ => false

/-- Whether the clauses of `$and` and `$or` all report OK. -/
def reportsAll (x : Except Exn (Option (List Bytes))) : Bool :=
  match x with
  | .ok set => set.isSome
  | .error _ => false

/-- Whether one member of a filter reports OK. -/
def stepReports (indexes : List Bytes) (op : Bytes) (ops : Json) : Bool :=
  if op = Bytes.ofText "$eq" then reports (c.findDocumentsUsingEq codec e ops indexes [])
  else if op = Bytes.ofText "$gt" then reports (c.findDocumentsUsingGt codec e ops [])
  else if op = Bytes.ofText "$lt" then reports (c.findDocumentsUsingLt codec e ops [])
  else if op = Bytes.ofText "$and" then reportsAll (c.findCombined codec e intersectIds indexes ops [])
  else if op = Bytes.ofText "$or" then reportsAll (c.findCombined codec e insertIds indexes ops [])
  else if op = Bytes.ofText "$orderBy" then reports (c.findOrdered e ops [])
  else true

/-- **Whether a query reports no error**: every member of its filter reports OK, to the log. -/
def findReports (filterOption : Json) : Bool :=
  match filterOption.entries with
  | .ok members => members.all fun x => c.stepReports codec e (e.getIndexNames c.name_) x.1 x.2
  | .error _ => false

end Collection

end AnuDB
