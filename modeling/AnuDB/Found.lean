import AnuDB.Conjunction
import AnuDB.Index

/-!
# What a query finds

Every id a query answers with has been read off an entry of an index, by one of the comparisons
that stand in the filter, and the key of the entry is where the comparison looks
(`AnuDB.Collection.exists_entry_of_found`). It does not matter how the comparisons are put
together: `$and` and `$or` come to none but the ids of the comparisons in them.

So what is known of the entries of the indexes is known of what queries answer
(`AnuDB.Collection.forall_findDocument`).
-/

namespace AnuDB

/-- **A comparison stands in a filter**: it is a member of it, or of a clause of `$and` or `$or`. -/
inductive Json.Mentions (query : Json) (op : Bytes) (ops : Json) : Prop
  /-- A member of the filter. -/
  | member {members : List (Bytes × Json)} (hmembers : query.entries = .ok members)
      (hmem : (op, ops) ∈ members) : query.Mentions op ops
  /-- A member of a clause. -/
  | clause {members elements : List (Bytes × Json)} {combining key : Bytes} {items : List Json}
      {item : Json} (hmembers : query.entries = .ok members)
      (hmem : (combining, .array items) ∈ members)
      (hcombining : combining = Bytes.ofText "$and" ∨ combining = Bytes.ofText "$or")
      (hitem : item ∈ items) (helements : item.entries = .ok elements)
      (helement : (key, ops) ∈ elements) (hkey : Collection.cString key = op) :
      query.Mentions op ops

/-- **Where a comparison looks**: in the index on the field it names first, at the keys that begin
with the key of its operand, at those behind or before them, or at all. -/
def LooksAt (codec : Codec) (op : Bytes) (ops : Json) (f key : Bytes) : Prop :=
  ∃ operand, ops.firstEntry = .ok (f, operand) ∧
    (op = Bytes.ofText "$orderBy" ∨ ∃ value, parseValue codec operand = .ok value ∧
      (op = Bytes.ofText "$eq" ∧ value ++ separator <+: key ∨
        op = Bytes.ofText "$gt" ∧ value ++ separator ≤ key ∧ ¬value ++ separator <+: key ∨
        op = Bytes.ofText "$lt" ∧ key < value ++ separator))

/-- Scans walk entries of their family. -/
theorem StorageEngine.mem_fetchDocIds {e : StorageEngine} {n id : Bytes} {docIds : List Bytes}
    {scan : List (Bytes × Bytes) → List (Bytes × Bytes)} (h : id ∈ (e.fetchDocIds scan n docIds).2) :
    id ∈ docIds ∨ ∃ key, (key, id) ∈ scan (e.cursor n) := by
  rw [fetchDocIds] at h
  rw [cursor]
  rcases hcf : e.columnFamilies_[n]? with _ | cf <;> rw [hcf] at h
  · exact Or.inl h
  · refine (List.mem_append.mp h).imp_right fun hid => ?_
    obtain ⟨y, hy, rfl⟩ := List.mem_map.mp hid
    exact ⟨y.1, hy⟩

namespace Collection

section Finding

variable {codec : Codec} {c : Collection} {e : StorageEngine} {P : Bytes → Prop}
  {Q : Bytes → Json → Prop} {ops : Json} {indexes docIds : List Bytes} {r : Status × List Bytes}
  (hentries : ∀ op ops f key id, Q op ops → LooksAt codec op ops f key →
    (key, id) ∈ e.cursor (c.getIndexCfName f) → P id)

include hentries

theorem forall_fetchDocIds {op f : Bytes} {scan : List (Bytes × Bytes) → List (Bytes × Bytes)}
    (hop : Q op ops) (hscan : ∀ y ∈ scan (e.cursor (c.getIndexCfName f)),
      y ∈ e.cursor (c.getIndexCfName f) ∧ LooksAt codec op ops f y.1)
    (h : ∀ id ∈ docIds, P id) : ∀ id ∈ (e.fetchDocIds scan (c.getIndexCfName f) docIds).2, P id := by
  intro id hid
  rcases StorageEngine.mem_fetchDocIds hid with hid | ⟨key, hkey⟩
  · exact h id hid
  · obtain ⟨hmem, hlooks⟩ := hscan _ hkey
    exact hentries op ops f key id hop hlooks hmem

theorem forall_findDocumentsUsingEq (hop : Q (Bytes.ofText "$eq") ops) (h : ∀ id ∈ docIds, P id)
    (hr : c.findDocumentsUsingEq codec e ops indexes docIds = .ok r) : ∀ id ∈ r.2, P id := by
  obtain ⟨⟨f, operand⟩, hfirst, hr⟩ := bind_eq_ok_iff.mp hr
  obtain ⟨value, hvalue, hr⟩ := bind_eq_ok_iff.mp hr
  split_ifs at hr <;> obtain rfl := Except.ok.inj hr
  · refine forall_fetchDocIds hentries hop (fun y hy => ?_) h
    obtain ⟨hmem, hbegins⟩ := (Scan.mem_equal (e.sorted_cursor _)).mp hy
    exact ⟨hmem, operand, hfirst, Or.inr ⟨value, hvalue, Or.inl ⟨rfl, hbegins⟩⟩⟩
  · exact h

theorem forall_findDocumentsUsingGt (hop : Q (Bytes.ofText "$gt") ops) (h : ∀ id ∈ docIds, P id)
    (hr : c.findDocumentsUsingGt codec e ops docIds = .ok r) : ∀ id ∈ r.2, P id := by
  obtain ⟨⟨f, operand⟩, hfirst, hr⟩ := bind_eq_ok_iff.mp hr
  obtain ⟨value, hvalue, hr⟩ := bind_eq_ok_iff.mp hr
  split_ifs at hr <;> obtain rfl := Except.ok.inj hr
  · exact h
  · refine forall_fetchDocIds hentries hop (fun y hy => ?_) h
    obtain ⟨hmem, hbehind⟩ := (Scan.mem_greater (e.sorted_cursor _)).mp hy
    exact ⟨hmem, operand, hfirst, Or.inr ⟨value, hvalue, Or.inr (Or.inl ⟨rfl, hbehind⟩)⟩⟩

theorem forall_findDocumentsUsingLt (hop : Q (Bytes.ofText "$lt") ops) (h : ∀ id ∈ docIds, P id)
    (hr : c.findDocumentsUsingLt codec e ops docIds = .ok r) : ∀ id ∈ r.2, P id := by
  obtain ⟨⟨f, operand⟩, hfirst, hr⟩ := bind_eq_ok_iff.mp hr
  obtain ⟨value, hvalue, hr⟩ := bind_eq_ok_iff.mp hr
  split_ifs at hr
  · obtain rfl := Except.ok.inj hr
    exact h
  · rw [StorageEngine.fetchDocIdsForLesser] at hr
    split_ifs at hr
    obtain rfl := Except.ok.inj hr
    refine forall_fetchDocIds hentries hop (fun y hy => ?_) h
    obtain ⟨hmem, hbefore⟩ := (Scan.mem_lesser (e.sorted_cursor _)).mp hy
    exact ⟨hmem, operand, hfirst, Or.inr ⟨value, hvalue, Or.inr (Or.inr ⟨rfl, hbefore⟩)⟩⟩

theorem forall_findOrdered (hop : Q (Bytes.ofText "$orderBy") ops) (h : ∀ id ∈ docIds, P id)
    (hr : c.findOrdered e ops docIds = .ok r) : ∀ id ∈ r.2, P id := by
  obtain ⟨⟨f, direction⟩, hfirst, hr⟩ := bind_eq_ok_iff.mp hr
  obtain ⟨value, -, hr⟩ := bind_eq_ok_iff.mp hr
  obtain rfl := Except.ok.inj hr
  refine forall_fetchDocIds hentries hop (fun y hy => ⟨?_, direction, hfirst, Or.inl rfl⟩) h
  split_ifs at hy
  · exact hy
  · exact List.mem_reverse.mp hy

theorem forall_findNested {op : Bytes} (hop : Q op ops)
    (hr : c.findNested codec e indexes op ops = .ok r) : ∀ id ∈ r.2, P id := by
  have hnone : ∀ id ∈ ([] : List Bytes), P id := fun id hid => absurd hid List.not_mem_nil
  rw [findNested] at hr
  split_ifs at hr with heq hgt hlt
  · exact forall_findDocumentsUsingEq hentries (heq ▸ hop) hnone hr
  · exact forall_findDocumentsUsingGt hentries (hgt ▸ hop) hnone hr
  · exact forall_findDocumentsUsingLt hentries (hlt ▸ hop) hnone hr
  · obtain rfl := Except.ok.inj hr
    exact hnone

variable {combine : List Bytes → List Bytes → List Bytes}
  (hcombine : ∀ set docIds : List Bytes, ∀ id ∈ combine set docIds, id ∈ set ∨ id ∈ docIds)

include hcombine

theorem forall_findInClause {elements : List (Bytes × Json)} {set set' : List Bytes}
    (hops : ∀ m ∈ elements, Q (cString m.1) m.2) (h : ∀ id ∈ set, P id)
    (hr : c.findInClause codec e combine indexes elements set = .ok (some set')) :
    ∀ id ∈ set', P id := by
  induction elements generalizing set with
  | nil =>
    obtain rfl := Option.some.inj (Except.ok.inj hr)
    exact h
  | cons m elements ih =>
    obtain ⟨hop, hops⟩ := List.forall_mem_cons.mp hops
    rw [findInClause] at hr
    obtain ⟨⟨status, own⟩, hfound, hr⟩ := bind_eq_ok_iff.mp hr
    dsimp only at hr
    split_ifs at hr
    · refine ih hops (fun id hid => ?_) hr
      exact (hcombine set own id hid).elim (h id) (forall_findNested hentries hop hfound id)
    · cases Except.ok.inj hr

theorem forall_findInClauses {items : List Json} {set set' : List Bytes}
    (hops : ∀ item ∈ items, ∀ elements, item.entries = .ok elements →
      ∀ m ∈ elements, Q (cString m.1) m.2) (h : ∀ id ∈ set, P id)
    (hr : c.findInClauses codec e combine indexes items set = .ok (some set')) :
    ∀ id ∈ set', P id := by
  induction items generalizing set with
  | nil =>
    obtain rfl := Option.some.inj (Except.ok.inj hr)
    exact h
  | cons item items ih =>
    obtain ⟨hitem, hitems⟩ := List.forall_mem_cons.mp hops
    rw [findInClauses] at hr
    obtain ⟨elements, helements, hr⟩ := bind_eq_ok_iff.mp hr
    obtain ⟨found, hfound, hr⟩ := bind_eq_ok_iff.mp hr
    rcases found with _ | found
    · cases Except.ok.inj hr
    · exact ih hitems
        (forall_findInClause hentries hcombine (hitem elements helements) h hfound) hr

theorem forall_findCombined {docIds' : List Bytes}
    (hops : ∀ items, ops = .array items → ∀ item ∈ items, ∀ elements,
      item.entries = .ok elements → ∀ m ∈ elements, Q (cString m.1) m.2)
    (h : ∀ id ∈ docIds, P id)
    (hr : c.findCombined codec e combine indexes ops docIds = .ok (some docIds')) :
    ∀ id ∈ docIds', P id := by
  have hignored (hr : (Except.ok (some docIds) : Except Exn _) = .ok (some docIds')) :
      ∀ id ∈ docIds', P id := by
    obtain rfl := Option.some.inj (Except.ok.inj hr)
    exact h
  cases ops with
  | array items =>
    obtain ⟨found, hfound, hr⟩ := bind_eq_ok_iff.mp hr
    obtain ⟨set, rfl, rfl⟩ := Option.map_eq_some_iff.mp (Except.ok.inj hr)
    have hnone : ∀ id ∈ ([] : List Bytes), P id := fun id hid => absurd hid List.not_mem_nil
    intro id hid
    exact (List.mem_append.mp hid).elim (h id)
      (forall_findInClauses hentries hcombine (hops items rfl) hnone hfound id)
  | _ => exact hignored hr

omit hcombine

/-- A member of a filter adds ids of its comparisons only. -/
theorem forall_findStep {op : Bytes} {docIds' : List Bytes} (hop : Q op ops)
    (hops : op = Bytes.ofText "$and" ∨ op = Bytes.ofText "$or" → ∀ items, ops = .array items →
      ∀ item ∈ items, ∀ elements, item.entries = .ok elements →
      ∀ m ∈ elements, Q (cString m.1) m.2)
    (h : ∀ id ∈ docIds, P id)
    (hr : c.findStep codec e indexes op ops docIds = .ok (some docIds')) : ∀ id ∈ docIds', P id := by
  have hintersect (set docIds : List Bytes) :
      ∀ id ∈ intersectIds set docIds, id ∈ set ∨ id ∈ docIds := by
    intro id hid
    rw [intersectIds_eq] at hid
    split_ifs at hid
    · exact Or.inr ((mem_insertIds.mp hid).resolve_left List.not_mem_nil)
    · exact Or.inl (List.mem_filter.mp hid).1
  rw [findStep] at hr
  split_ifs at hr with heq hgt hlt hand hor horder
  · obtain ⟨found, hfound, hr⟩ := bind_eq_ok_iff.mp hr
    obtain rfl := Option.some.inj (Except.ok.inj hr)
    exact forall_findDocumentsUsingEq hentries (heq ▸ hop) h hfound
  · obtain ⟨found, hfound, hr⟩ := bind_eq_ok_iff.mp hr
    obtain rfl := Option.some.inj (Except.ok.inj hr)
    exact forall_findDocumentsUsingGt hentries (hgt ▸ hop) h hfound
  · obtain ⟨found, hfound, hr⟩ := bind_eq_ok_iff.mp hr
    obtain rfl := Option.some.inj (Except.ok.inj hr)
    exact forall_findDocumentsUsingLt hentries (hlt ▸ hop) h hfound
  · exact forall_findCombined hentries hintersect (hops (Or.inl hand)) h hr
  · exact forall_findCombined hentries (fun set docIds id hid => mem_insertIds.mp hid)
      (hops (Or.inr hor)) h hr
  · obtain ⟨found, hfound, hr⟩ := bind_eq_ok_iff.mp hr
    obtain rfl := Option.some.inj (Except.ok.inj hr)
    exact forall_findOrdered hentries (horder ▸ hop) h hfound
  · obtain rfl := Option.some.inj (Except.ok.inj hr)
    exact h

theorem forall_findAll {members : List (Bytes × Json)} {docIds' : List Bytes}
    (hops : ∀ m ∈ members, Q m.1 m.2 ∧ (m.1 = Bytes.ofText "$and" ∨ m.1 = Bytes.ofText "$or" →
      ∀ items, m.2 = .array items → ∀ item ∈ items, ∀ elements, item.entries = .ok elements →
      ∀ m ∈ elements, Q (cString m.1) m.2))
    (h : ∀ id ∈ docIds, P id) (hr : c.findAll codec e indexes members docIds = .ok docIds') :
    ∀ id ∈ docIds', P id := by
  induction members generalizing docIds with
  | nil =>
    obtain rfl := Except.ok.inj hr
    exact h
  | cons m members ih =>
    obtain ⟨⟨hop, hclauses⟩, hops⟩ := List.forall_mem_cons.mp hops
    rw [findAll] at hr
    obtain ⟨found, hfound, hr⟩ := bind_eq_ok_iff.mp hr
    rcases found with _ | found
    · obtain rfl := Except.ok.inj hr
      exact fun id hid => absurd hid List.not_mem_nil
    · exact ih hops (forall_findStep hentries hop hclauses h hfound) hr

end Finding

variable {codec : Codec} {c : Collection} {e : StorageEngine} {query : Json} {docIds : List Bytes}

/-- **An id that is found has been read off an entry**: a comparison stands in the filter, and the
entry is where it looks. -/
theorem exists_entry_of_found (h : c.findDocument codec e query = .ok docIds) {id : Bytes}
    (hid : id ∈ docIds) : ∃ op ops f key, query.Mentions op ops ∧ LooksAt codec op ops f key ∧
      (key, id) ∈ e.cursor (c.getIndexCfName f) := by
  obtain ⟨members, hmembers, hr⟩ := bind_eq_ok_iff.mp h
  refine forall_findAll (Q := query.Mentions)
    (P := fun id => ∃ op ops f key, query.Mentions op ops ∧ LooksAt codec op ops f key ∧
      (key, id) ∈ e.cursor (c.getIndexCfName f))
    (fun op ops f key id hop hlooks hmem => ⟨op, ops, f, key, hop, hlooks, hmem⟩) ?_
    (fun id hid => absurd hid List.not_mem_nil) hr id hid
  rintro ⟨op, ops⟩ hm
  refine ⟨.member hmembers hm, ?_⟩
  rintro hcombining items rfl item hitem elements helements ⟨key, ops⟩ helement
  exact .clause hmembers hm hcombining hitem helements helement rfl

/-- **A query finds ids of the indexes only**, whatever it asks for. -/
theorem forall_findDocument {P : Bytes → Prop}
    (hindexes : ∀ f key id, (key, id) ∈ e.cursor (c.getIndexCfName f) → P id)
    (hr : c.findDocument codec e query = .ok docIds) : ∀ id ∈ docIds, P id := by
  intro id hid
  obtain ⟨-, -, f, key, -, -, hmem⟩ := exists_entry_of_found hr hid
  exact hindexes f key id hmem

end Collection

end AnuDB
