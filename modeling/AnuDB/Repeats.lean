import AnuDB.Disjunction
import AnuDB.Range

/-!
# Does a query repeat itself?

The members of a filter are run one after the other, and what they find goes to the end of one
list. An index with one entry for a document gives each scan no id twice, and `$and` and `$or`
collect a set. But nothing looks at what the members before have found: the list is the members'
lists, put together (`AnuDB.Collection.findAll_cases`). So a query repeats an id exactly if two of
its members find it (`AnuDB.Collection.nodup_iff_apart`).
-/

namespace AnuDB

namespace Collection

variable (codec : Codec) (c : Collection) (e : StorageEngine)

/-- **A member of a filter comes to ids**: it does not throw, and is not cut short by an operator
inside it that reports an error. -/
def Comes (m : Bytes × Json) : Prop :=
  ∃ own, c.findStep codec e (e.getIndexNames c.name_) m.1 m.2 [] = .ok (some own)

/-- The ids a member of a filter comes to. -/
def found (m : Bytes × Json) : List Bytes :=
  match c.findStep codec e (e.getIndexNames c.name_) m.1 m.2 [] with
  | .ok (some own) => own
  | _ => []

variable {codec c e} {op : Bytes} {ops : Json} {indexes : List Bytes}

/-! ### The lists of the members, put together -/

theorem findCombined_append (combine : List Bytes → List Bytes → List Bytes)
    (docIds : List Bytes) : c.findCombined codec e combine indexes ops docIds =
      (c.findCombined codec e combine indexes ops []).map (Option.map (docIds ++ ·)) := by
  cases ops with
  | array items =>
    rw [findCombined, findCombined]
    rcases c.findInClauses codec e combine indexes items [] with exn | _ | set <;> rfl
  | _ => exact congrArg (fun l => Except.ok (some l)) (List.append_nil docIds).symm

theorem findOrdered_append (docIds : List Bytes) : c.findOrdered e ops docIds =
    (c.findOrdered e ops []).map fun r => (r.1, docIds ++ r.2) := by
  rw [findOrdered, findOrdered]
  rcases ops.firstEntry with exn | ⟨key, direction⟩
  · rfl
  · simp only [ok_bind, StorageEngine.fetchDocIdsByOrder]
    rcases direction.getString with exn | value
    · rfl
    · rw [ok_bind, ok_bind, e.fetchDocIds_append]
      rfl

/-- **A member adds what it comes to**, whatever has been found before. -/
theorem findStep_append (docIds : List Bytes) : c.findStep codec e indexes op ops docIds =
    (c.findStep codec e indexes op ops []).map (Option.map (docIds ++ ·)) := by
  have hscan (x : Except Exn (Status × List Bytes)) :
      (do return some (← x.map fun r => (r.1, docIds ++ r.2)).2) =
        (do return some (← x).2 : Except Exn (Option (List Bytes))).map (Option.map (docIds ++ ·)) := by
    rcases x with exn | r <;> rfl
  rw [findStep, findStep]
  split_ifs
  · rw [findDocumentsUsingEq_append, hscan]
  · rw [findDocumentsUsingGt_append, hscan]
  · rw [findDocumentsUsingLt_append, hscan]
  · exact findCombined_append _ docIds
  · exact findCombined_append _ docIds
  · rw [findOrdered_append, hscan]
  · exact congrArg (fun l => Except.ok (some l)) (List.append_nil docIds).symm

theorem found_eq {m : Bytes × Json} {own : List Bytes}
    (h : c.findStep codec e (e.getIndexNames c.name_) m.1 m.2 [] = .ok (some own)) :
    c.found codec e m = own := by
  rw [found, h]

/-- **What the members of a filter come to together**: their lists, one after the other, or one of
them comes to none, and the query to nothing. -/
theorem findAll_cases (members : List (Bytes × Json)) (docIds : List Bytes) :
    (∀ m ∈ members, c.Comes codec e m) ∧ c.findAll codec e (e.getIndexNames c.name_) members docIds =
      .ok (docIds ++ (members.map (c.found codec e)).flatten) ∨
    ¬(∀ m ∈ members, c.Comes codec e m) ∧
      ∀ ids, c.findAll codec e (e.getIndexNames c.name_) members docIds = .ok ids → ids = [] := by
  induction members generalizing docIds with
  | nil => exact Or.inl ⟨fun m hm => absurd hm List.not_mem_nil, by simp [findAll]⟩
  | cons m members ih =>
    obtain ⟨op, ops⟩ := m
    have hstep := @findStep_append codec c e op ops (e.getIndexNames c.name_) docIds
    rw [findAll, hstep, List.forall_mem_cons]
    rcases hown : c.findStep codec e (e.getIndexNames c.name_) op ops [] with exn | _ | own
    · refine Or.inr ⟨fun h => ?_, fun ids h => by cases h⟩
      obtain ⟨own, hcomes⟩ := h.1
      cases hown.symm.trans hcomes
    · refine Or.inr ⟨fun h => ?_, fun ids h => (Except.ok.inj h).symm⟩
      obtain ⟨own, hcomes⟩ := h.1
      cases hown.symm.trans hcomes
    · have hfound : c.found codec e (op, ops) = own := found_eq hown
      have hcomes : c.Comes codec e (op, ops) := ⟨own, hown⟩
      rw [and_iff_right hcomes, List.map_cons, List.flatten_cons, hfound, ← List.append_assoc]
      exact ih (docIds ++ own)

/-! ### The lists of the members -/

theorem nodup_findInClause {combine : List Bytes → List Bytes → List Bytes}
    (hcombine : ∀ {set docIds}, set.Nodup → (combine set docIds).Nodup)
    {members : List (Bytes × Json)} {set set' : List Bytes} (hset : set.Nodup)
    (h : c.findInClause codec e combine (e.getIndexNames c.name_) members set = .ok (some set')) :
    set'.Nodup := by
  induction members generalizing set with
  | nil => exact Option.some.inj (Except.ok.inj h) ▸ hset
  | cons m members ih =>
    rw [findInClause_eq, List.map_cons] at h
    rcases hm : c.outcome codec e m with exn | ⟨status, docIds⟩
    · rw [hm] at h
      cases h
    · rw [hm, combineAll_ok] at h
      split_ifs at h
      · rw [← findInClause_eq] at h
        exact ih (hcombine hset) h
      · cases h

theorem nodup_findInClauses {combine : List Bytes → List Bytes → List Bytes}
    (hcombine : ∀ {set docIds}, set.Nodup → (combine set docIds).Nodup)
    {items : List Json} {set set' : List Bytes} (hset : set.Nodup)
    (h : c.findInClauses codec e combine (e.getIndexNames c.name_) items set = .ok (some set')) :
    set'.Nodup := by
  induction items generalizing set with
  | nil => exact Option.some.inj (Except.ok.inj h) ▸ hset
  | cons item items ih =>
    rw [findInClauses] at h
    obtain ⟨members, -, h⟩ := bind_eq_ok_iff.mp h
    obtain ⟨found, hfound, h⟩ := bind_eq_ok_iff.mp h
    cases found with
    | none => cases h
    | some found => exact ih (nodup_findInClause hcombine hset hfound) h

variable {codec : Codec}

/-- **The indexes of a collection have one entry for each document with the field.** -/
def IndexesExact (codec : Codec) (e : StorageEngine) (c : Collection) : Prop :=
  ∀ f, c.getIndexCfName f ∈ e.columnFamilies_ → ExactIndex codec e c f

/-- A scan of an exact index finds no id twice. -/
theorem IndexesExact.nodup_fetchDocIds (h : IndexesExact codec e c) (f : Bytes)
    {scan : List (Bytes × Bytes) → List (Bytes × Bytes)}
    (hnodup : ∀ {l}, Scan.Sorted l → (scan l).Nodup) (hscan : ∀ {l} {y}, Scan.Sorted l →
      y ∈ scan l → y ∈ l) : (e.fetchDocIds scan (c.getIndexCfName f) []).2.Nodup := by
  by_cases hmem : c.getIndexCfName f ∈ e.columnFamilies_
  · have hsorted := e.sorted_cursor (c.getIndexCfName f)
    rw [e.fetchDocIds_of_mem hmem, List.nil_append]
    exact (h f hmem).nodup (hnodup hsorted) fun y hy => hscan hsorted hy
  · rw [StorageEngine.mem_iff_contents, Option.not_isSome_iff_eq_none] at hmem
    rw [StorageEngine.contents] at hmem
    rw [StorageEngine.fetchDocIds, hmem]
    exact List.nodup_nil

section Scans

variable {r : Status × List Bytes}

theorem IndexesExact.nodup_eq (h : IndexesExact codec e c)
    (hr : c.findDocumentsUsingEq codec e ops indexes [] = .ok r) : r.2.Nodup := by
  obtain ⟨⟨key, operand⟩, -, hr⟩ := bind_eq_ok_iff.mp hr
  obtain ⟨value, -, hr⟩ := bind_eq_ok_iff.mp hr
  split_ifs at hr
  · obtain rfl := Except.ok.inj hr
    exact h.nodup_fetchDocIds key Scan.nodup_equal fun hl hy => ((Scan.mem_equal hl).mp hy).1
  · obtain rfl := Except.ok.inj hr
    exact List.nodup_nil

theorem IndexesExact.nodup_gt (h : IndexesExact codec e c)
    (hr : c.findDocumentsUsingGt codec e ops [] = .ok r) : r.2.Nodup := by
  obtain ⟨⟨key, operand⟩, -, hr⟩ := bind_eq_ok_iff.mp hr
  obtain ⟨value, -, hr⟩ := bind_eq_ok_iff.mp hr
  split_ifs at hr
  · obtain rfl := Except.ok.inj hr
    exact List.nodup_nil
  · obtain rfl := Except.ok.inj hr
    exact h.nodup_fetchDocIds key Scan.nodup_greater fun hl hy => ((Scan.mem_greater hl).mp hy).1

theorem IndexesExact.nodup_lt (h : IndexesExact codec e c)
    (hr : c.findDocumentsUsingLt codec e ops [] = .ok r) : r.2.Nodup := by
  obtain ⟨⟨key, operand⟩, -, hr⟩ := bind_eq_ok_iff.mp hr
  obtain ⟨value, -, hr⟩ := bind_eq_ok_iff.mp hr
  split_ifs at hr
  · obtain rfl := Except.ok.inj hr
    exact List.nodup_nil
  · rw [StorageEngine.fetchDocIdsForLesser] at hr
    split_ifs at hr
    obtain rfl := Except.ok.inj hr
    exact h.nodup_fetchDocIds key Scan.nodup_lesser fun hl hy => ((Scan.mem_lesser hl).mp hy).1

theorem IndexesExact.nodup_ordered (h : IndexesExact codec e c)
    (hr : c.findOrdered e ops [] = .ok r) : r.2.Nodup := by
  obtain ⟨⟨key, direction⟩, -, hr⟩ := bind_eq_ok_iff.mp hr
  obtain ⟨value, -, hr⟩ := bind_eq_ok_iff.mp hr
  obtain rfl := Except.ok.inj hr
  refine h.nodup_fetchDocIds key (fun hl => ?_) fun hl hy => ?_
  · split_ifs
    · exact hl.nodup
    · exact List.nodup_reverse.mpr hl.nodup
  · split_ifs at hy
    · exact hy
    · exact List.mem_reverse.mp hy

end Scans

theorem nodup_findCombined {combine : List Bytes → List Bytes → List Bytes}
    (hcombine : ∀ {set docIds}, set.Nodup → (combine set docIds).Nodup) {own : List Bytes}
    (h : c.findCombined codec e combine (e.getIndexNames c.name_) ops [] = .ok (some own)) :
    own.Nodup := by
  cases ops with
  | array items =>
    obtain ⟨found, hfound, h⟩ := bind_eq_ok_iff.mp h
    obtain ⟨set, rfl, rfl⟩ := Option.map_eq_some_iff.mp (Except.ok.inj h)
    exact nodup_findInClauses hcombine List.nodup_nil hfound
  | _ => exact Option.some.inj (Except.ok.inj h) ▸ List.nodup_nil

/-- **A member of a filter finds no id twice.** -/
theorem IndexesExact.nodup_found (h : IndexesExact codec e c) {m : Bytes × Json}
    (hcomes : c.Comes codec e m) : (c.found codec e m).Nodup := by
  obtain ⟨own, hown⟩ := hcomes
  rw [found_eq hown]
  -- a scan that is read for its ids
  have hscan {x : Except Exn (Status × List Bytes)}
      (hx : (do return some (← x).2 : Except Exn (Option (List Bytes))) = .ok (some own))
      (hnodup : ∀ {r}, x = .ok r → r.2.Nodup) : own.Nodup := by
    obtain ⟨r, hr, hr'⟩ := bind_eq_ok_iff.mp hx
    exact Option.some.inj (Except.ok.inj hr') ▸ hnodup hr
  rw [findStep] at hown
  split_ifs at hown
  · exact hscan hown h.nodup_eq
  · exact hscan hown h.nodup_gt
  · exact hscan hown h.nodup_lt
  · exact nodup_findCombined nodup_intersectIds hown
  · exact nodup_findCombined nodup_insertIds hown
  · exact hscan hown h.nodup_ordered
  · exact Option.some.inj (Except.ok.inj hown) ▸ List.nodup_nil

/-! ### When a query repeats itself -/

/-- **The members of a query find no id in common**, if all of them come to ids. -/
def Apart (codec : Codec) (c : Collection) (e : StorageEngine) (query : Json) : Prop :=
  ∀ members, query.entries = .ok members → (∀ m ∈ members, c.Comes codec e m) →
    members.Pairwise fun m m' => (c.found codec e m).Disjoint (c.found codec e m')

/-- **When a query finds no id twice**: when no two of its members find one. -/
theorem nodup_iff_apart (h : IndexesExact codec e c) (query : Json) :
    (∀ ids, c.findDocument codec e query = .ok ids → ids.Nodup) ↔ c.Apart codec e query := by
  rcases hentries : query.entries with exn | members
  · refine iff_of_true (fun ids hids => ?_) fun members hmembers => ?_
    · rw [findDocument, hentries] at hids
      cases hids
    · cases hentries.symm.trans hmembers
  have hfind : c.findDocument codec e query =
      c.findAll codec e (e.getIndexNames c.name_) members [] := by
    rw [findDocument, hentries, ok_bind]
  have hapart : c.Apart codec e query ↔ ((∀ m ∈ members, c.Comes codec e m) →
      (members.map (c.found codec e)).Pairwise List.Disjoint) := by
    rw [List.pairwise_map]
    refine ⟨fun hquery => hquery members hentries, fun hmembers members' hentries' => ?_⟩
    obtain rfl := Except.ok.inj (hentries.symm.trans hentries')
    exact hmembers
  rw [hapart, hfind]
  rcases @findAll_cases codec c e members [] with ⟨hcomes, hall⟩ | ⟨hnot, hempty⟩
  · -- no list has an id twice, so what is left is that no two share one
    have hnodup : ∀ own ∈ members.map (c.found codec e), own.Nodup := by
      intro own hown
      obtain ⟨m, hm, rfl⟩ := List.mem_map.mp hown
      exact h.nodup_found (hcomes m hm)
    rw [hall, List.nil_append, imp_iff_right hcomes]
    constructor
    · intro hids
      exact (List.nodup_flatten.mp (hids _ rfl)).2
    · intro hdisjoint ids hids
      rw [← Except.ok.inj hids]
      exact List.nodup_flatten.mpr ⟨hnodup, hdisjoint⟩
  · exact iff_of_true (fun ids hids => hempty ids hids ▸ List.nodup_nil) fun hcomes =>
      absurd hcomes hnot

/-! ### A query of two comparisons -/

theorem indexesExact_oneNumber : IndexesExact .standard (oneNumber 5) letterC := by
  intro f hf
  have hkeys : (oneNumber 5).columnFamilies_.keys = [letterC.name_,
      indexFamily letterC.name_ (Bytes.ofText "f"), kDefaultColumnFamilyName] := by rfl
  rw [← Std.ExtTreeMap.mem_keys, hkeys] at hf
  rcases List.mem_cons.mp hf with h | hf
  · exact absurd h (indexFamily_ne letterC.name_ f)
  rcases List.mem_cons.mp hf with h | hf
  · obtain rfl := indexFamily_injective h
    exact exactIndex_oneNumber 5
  · -- the default family is not named after the collection
    have hhead := congrArg List.head? (List.mem_singleton.mp hf)
    cases hhead

/-- A query of two comparisons of the field `f`. -/
def equalAndGreater (equal greater : ℤ) : Json :=
  .object [(Bytes.ofText "$eq", .object [(Bytes.ofText "f", .integer equal)]),
    (Bytes.ofText "$gt", .object [(Bytes.ofText "f", .integer greater)])]

theorem nodup_equalAndGreater : ∃ ids,
    letterC.findDocument .standard (oneNumber 5) (equalAndGreater 5 7) = .ok ids ∧ ids.Nodup := by
  refine ⟨[Bytes.ofText "a"], by rfl, ?_⟩
  refine (nodup_iff_apart indexesExact_oneNumber (equalAndGreater 5 7)).mpr ?_ _ (by rfl)
  rintro members hmembers -
  obtain rfl := Except.ok.inj hmembers
  have hgreater : letterC.found .standard (oneNumber 5)
      (Bytes.ofText "$gt", .object [(Bytes.ofText "f", .integer 7)]) = [] := by rfl
  refine List.pairwise_cons.mpr ⟨fun m hm => ?_, List.pairwise_singleton _ _⟩
  rw [List.mem_singleton.mp hm, hgreater]
  exact List.disjoint_nil_right _

/-- **What is equal and what is greater is found twice**, once by each comparison. -/
theorem not_nodup_equalAndGreater : IndexesExact .standard (oneNumber 5) letterC ∧
    ∃ ids, letterC.findDocument .standard (oneNumber 5) (equalAndGreater 5 3) = .ok ids ∧ ¬ids.Nodup := by
  refine ⟨indexesExact_oneNumber, [Bytes.ofText "a", Bytes.ofText "a"], by rfl, ?_⟩
  decide

end Collection

end AnuDB
