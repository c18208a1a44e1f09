import AnuDB.Conjunction

/-!
# Does `$or` unite?

The loops of `$and` and `$or` differ in what they do with the ids of one more operator, and in
nothing else: they run the operators of all clauses in order, and the first that throws or reports
an error ends the query (`AnuDB.Collection.findInClauses_eq`). So a query is a fold over what its
operators come to, each on its own.

For `$or` that fold collects a set, and it makes no difference that a set nothing is in yet is
filled by another call. If all operators report OK, the query finds the ids any of them finds, each
once; if one reports an error, it finds nothing, unless an earlier one has thrown
(`AnuDB.Collection.findDocument_or`).
-/

namespace AnuDB

namespace Collection

variable (codec : Codec) (c : Collection) (e : StorageEngine)

/-! ### The loops, as folds -/

/-- What one operator of a clause comes to. -/
def outcome (m : Bytes × Json) : Except Exn (Status × List Bytes) :=
  c.findNested codec e (e.getIndexNames c.name_) (cString m.1) m.2

/-- What the operators of some clauses come to, in the order they are run in. -/
def outcomes (clauses : List (List (Bytes × Json))) : List (Except Exn (Status × List Bytes)) :=
  clauses.flatten.map (c.outcome codec e)

/-- **The loop over operators**, over what they come to: the first that throws, or reports an
error, ends it. -/
def combineAll (combine : List Bytes → List Bytes → List Bytes) :
    List (Except Exn (Status × List Bytes)) → List Bytes → Except Exn (Option (List Bytes))
  | [], set => .ok (some set)
  | x :: xs, set => do
    let (status, docIds) ← x
    if status.ok then combineAll combine xs (combine set docIds) else return none

variable {codec c e} {combine : List Bytes → List Bytes → List Bytes}

theorem combineAll_ok {status : Status} {own : List Bytes}
    {xs : List (Except Exn (Status × List Bytes))} {set : List Bytes} :
    combineAll combine (.ok (status, own) :: xs) set =
      if status.ok then combineAll combine xs (combine set own) else .ok none := rfl

theorem combineAll_append (xs ys : List (Except Exn (Status × List Bytes))) (set : List Bytes) :
    combineAll combine (xs ++ ys) set = combineAll combine xs set >>= fun found =>
      match found with
      | none => .ok none
      | some set => combineAll combine ys set := by
  induction xs generalizing set with
  | nil => rfl
  | cons x xs ih =>
    rw [List.cons_append, combineAll, combineAll]
    rcases x with exn | ⟨status, docIds⟩
    · rfl
    · simp only [ok_bind]
      split_ifs
      · exact ih _
      · rfl

theorem findInClause_eq (members : List (Bytes × Json)) (set : List Bytes) :
    c.findInClause codec e combine (e.getIndexNames c.name_) members set =
      combineAll combine (members.map (c.outcome codec e)) set := by
  induction members generalizing set with
  | nil => rfl
  | cons m members ih =>
    rw [findInClause, List.map_cons, combineAll]
    show (c.outcome codec e m >>= _) = _
    rcases c.outcome codec e m with exn | ⟨status, docIds⟩
    · rfl
    · simp only [ok_bind, ih]

/-- **The clauses of a query are their operators**, one after the other. -/
theorem findInClauses_eq (clauses : List (List (Bytes × Json))) (set : List Bytes) :
    c.findInClauses codec e combine (e.getIndexNames c.name_) (clauses.map .object) set =
      combineAll combine (c.outcomes codec e clauses) set := by
  induction clauses generalizing set with
  | nil => rfl
  | cons members clauses ih =>
    rw [List.map_cons, findInClauses, outcomes, List.flatten_cons, List.map_append,
      combineAll_append, ← findInClause_eq, Json.entries, ok_bind]
    rcases c.findInClause codec e combine (e.getIndexNames c.name_) members set with exn | _ | found
    · rfl
    · rfl
    · exact ih found

/-! ### How the loop ends -/

/-- An operator evaluates without error. -/
def Reports (x : Except Exn (Status × List Bytes)) (own : List Bytes) : Prop :=
  ∃ status, x = .ok (status, own) ∧ status.ok = true

variable {xs : List (Except Exn (Status × List Bytes))}

theorem Reports.unique {x : Except Exn (Status × List Bytes)} {own own' : List Bytes}
    (h : Reports x own) (h' : Reports x own') : own = own' := by
  obtain ⟨status, rfl, -⟩ := h
  obtain ⟨status', heq, -⟩ := h'
  exact (Prod.mk.inj (Except.ok.inj heq)).2

/-- Where every operator reports OK, the loop comes to its end with a fold. -/
theorem combineAll_of_reports (combine : List Bytes → List Bytes → List Bytes)
    (h : ∀ x ∈ xs, ∃ own, Reports x own) : ∃ owns : List (List Bytes),
    (∀ own, own ∈ owns ↔ ∃ x ∈ xs, Reports x own) ∧
      ∀ set, combineAll combine xs set = .ok (some (owns.foldl combine set)) := by
  induction xs with
  | nil => exact ⟨[], fun own => by simp, fun set => rfl⟩
  | cons x xs ih =>
    obtain ⟨⟨own, hown⟩, hxs⟩ := List.forall_mem_cons.mp h
    obtain ⟨owns, howns, hfold⟩ := ih hxs
    refine ⟨own :: owns, fun own' => ?_, fun set => ?_⟩
    · rw [List.mem_cons, List.exists_mem_cons_iff, howns]
      refine or_congr_left ⟨?_, fun h' => h'.unique hown⟩
      rintro rfl
      exact hown
    · obtain ⟨status, rfl, hok⟩ := hown
      rw [combineAll_ok, if_pos hok, hfold, List.foldl_cons]

/-- An operator that reports an error ends the loop, if none before it throws. -/
theorem combineAll_of_error {status : Status} {own : List Bytes}
    (hxs : ∀ x ∈ xs, ∃ r, x = .ok r) (hstatus : status.ok = false)
    (ys : List (Except Exn (Status × List Bytes))) (set : List Bytes) :
    combineAll combine (xs ++ .ok (status, own) :: ys) set = .ok none := by
  induction xs generalizing set with
  | nil => rw [List.nil_append, combineAll_ok, if_neg (Bool.eq_false_iff.mp hstatus)]
  | cons x xs ih =>
    obtain ⟨⟨⟨status', own'⟩, rfl⟩, hrest⟩ := List.forall_mem_cons.mp hxs
    rw [List.cons_append, combineAll_ok]
    split_ifs
    · exact ih hrest _
    · rfl

/-- An operator that throws is not caught, if all before it report OK. -/
theorem combineAll_of_throws {exn : Exn} (hxs : ∀ x ∈ xs, ∃ own, Reports x own)
    (ys : List (Except Exn (Status × List Bytes))) (set : List Bytes) :
    combineAll combine (xs ++ .error exn :: ys) set = .error exn := by
  obtain ⟨owns, -, hfold⟩ := combineAll_of_reports combine hxs
  rw [combineAll_append, hfold]
  rfl

/-! ### What `$or` finds -/

/-- The query `$or` of clauses. -/
def disjunction (clauses : List (List (Bytes × Json))) : Json :=
  .object [(Bytes.ofText "$or", .array (clauses.map .object))]

theorem findDocument_disjunction (clauses : List (List (Bytes × Json))) :
    c.findDocument codec e (disjunction clauses) =
      (combineAll insertIds (c.outcomes codec e clauses) []).map fun found => found.getD [] := by
  have hor : c.findStep codec e (e.getIndexNames c.name_) (Bytes.ofText "$or")
      (.array (clauses.map .object)) [] =
        c.findCombined codec e insertIds (e.getIndexNames c.name_) (.array (clauses.map .object)) [] := by
    rw [findStep, if_neg (by decide), if_neg (by decide), if_neg (by decide), if_neg (by decide),
      if_pos rfl]
  rw [findDocument, disjunction]
  simp only [Json.entries, ok_bind, findAll, hor, findCombined, findInClauses_eq]
  rcases combineAll insertIds (c.outcomes codec e clauses) [] with exn | _ | found <;> rfl

/-- A fold of insertions is a set with everything in it. -/
theorem foldl_insertIds (owns : List (List Bytes)) {set : List Bytes} (h : set.Nodup) :
    (owns.foldl insertIds set).Nodup ∧
      ∀ id, id ∈ owns.foldl insertIds set ↔ id ∈ set ∨ ∃ own ∈ owns, id ∈ own := by
  induction owns generalizing set with
  | nil => exact ⟨h, fun id => by simp⟩
  | cons own owns ih =>
    have hset : (insertIds set own).Nodup := nodup_insertIds h
    obtain ⟨hnodup, hmem⟩ := ih hset
    refine ⟨hnodup, fun id => ?_⟩
    rw [List.foldl_cons, hmem, mem_insertIds, List.exists_mem_cons_iff, or_assoc]

/-- **What `$or` finds.** Where every operator reports OK, it is the union of what they find, each
id once. Where one reports an error and none before it throws, it is nothing. And what is thrown
before any error is reported leaves the query. -/
theorem findDocument_or (codec : Codec) (c : Collection) (e : StorageEngine)
    (clauses : List (List (Bytes × Json))) :
    ((∀ x ∈ c.outcomes codec e clauses, ∃ own, Reports x own) →
      ∃ ids, c.findDocument codec e (disjunction clauses) = .ok ids ∧ ids.Nodup ∧
        ∀ id, id ∈ ids ↔ ∃ x ∈ c.outcomes codec e clauses, ∃ own, Reports x own ∧ id ∈ own) ∧
    (∀ before status own after, c.outcomes codec e clauses = before ++ .ok (status, own) :: after →
      status.ok = false → (∀ x ∈ before, ∃ r, x = .ok r) →
        c.findDocument codec e (disjunction clauses) = .ok []) ∧
    ∀ before exn after, c.outcomes codec e clauses = before ++ .error exn :: after →
      (∀ x ∈ before, ∃ own, Reports x own) →
        c.findDocument codec e (disjunction clauses) = .error exn := by
  refine ⟨fun hall => ?_, fun before status own after houtcomes hstatus hbefore => ?_,
    fun before exn after houtcomes hbefore => ?_⟩
  · obtain ⟨owns, howns, hfold⟩ := combineAll_of_reports insertIds hall
    obtain ⟨hnodup, hmem⟩ := foldl_insertIds owns List.nodup_nil
    refine ⟨_, by rw [findDocument_disjunction, hfold]; rfl, hnodup, fun id => ?_⟩
    rw [hmem, or_iff_right List.not_mem_nil]
    constructor
    · rintro ⟨own, hown, hid⟩
      obtain ⟨x, hx, hreports⟩ := (howns own).mp hown
      exact ⟨x, hx, own, hreports, hid⟩
    · rintro ⟨x, hx, own, hreports, hid⟩
      exact ⟨own, (howns own).mpr ⟨x, hx, hreports⟩, hid⟩
  · rw [findDocument_disjunction, houtcomes, combineAll_of_error hbefore hstatus]
    rfl
  · rw [findDocument_disjunction, houtcomes, combineAll_of_throws hbefore]
    rfl

/-- Two clauses: the operand of the first is an array, and that of the second has no key. -/
def arrayThenNull : List (List (Bytes × Json)) :=
  [[(Bytes.ofText "$eq", .object [(Bytes.ofText "f", .array [])])],
    [(Bytes.ofText "$gt", .object [(Bytes.ofText "f", .null)])]]

/-- **An error behind an exception is not come to**: the query has no result, not an empty one. -/
theorem findDocument_ne_of_thrown :
    (∃ x ∈ ofThreeEntries.outcomes .standard .threeEntries arrayThenNull, ∃ status own,
      x = .ok (status, own) ∧ status.ok = false) ∧
    ∀ ids, ofThreeEntries.findDocument .standard .threeEntries (disjunction arrayThenNull) ≠ .ok ids := by
  refine ⟨⟨.ok (unparsed, []), ?_, unparsed, [], rfl, rfl⟩, fun ids hids => ?_⟩
  · exact List.mem_cons_of_mem _ (List.mem_singleton.mpr (by rfl))
  · have hthrown : ofThreeEntries.findDocument .standard .threeEntries (disjunction arrayThenNull) =
        .error (Json.array []).notAString := by rfl
    cases hthrown.symm.trans hids

end Collection

end AnuDB
