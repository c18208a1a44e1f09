import AnuDB.StringKeys

/-!
# Does `$orderBy` sort numbers?

`$orderBy` walks an index from one end to the other, and the keys of numbers are all of one length,
so what decides is the key of the number and, where two numbers have one key, the id of the
document. The keys are in the order of `AnuDB.rank`. So an index of numbers is walked in the order
of what they are worth exactly if the ranks, and behind them the ids, never put a number before
one that is less (`AnuDB.numbersSorted_iff`); and any word for the direction but `asc` is the walk
the other way round.

Doubles never get out of order (`AnuDB.numbersSorted_of_floats`), not even the two zeros, which
are worth the same. Integers do, from `2 ^ 31` on.
-/

namespace AnuDB

variable {codec : Codec} {e : StorageEngine} {c : Collection} {f : Bytes}

/-- A document has a number in the field. -/
def NumberAt (codec : Codec) (e : StorageEngine) (c : Collection) (f id : Bytes) (v : Json) :
    Prop :=
  ∃ doc, e.document codec c.name_ id = some doc ∧ doc.data_.find? f = some v ∧ v.isNumber = true

/-- Whatever is in the field is a number. -/
def AllNumbers (codec : Codec) (e : StorageEngine) (c : Collection) (f : Bytes) : Prop :=
  ∀ id doc v, e.document codec c.name_ id = some doc → doc.data_.find? f = some v →
    v.isNumber = true

/-- **`$orderBy` sorts**: upwards it lists the documents with the field, each once, and their
numbers do not decrease; whatever else the direction is called, it lists them the other way
round. -/
def NumbersSorted (codec : Codec) (e : StorageEngine) (c : Collection) (f : Bytes) : Prop :=
  ∃ ids, c.findDocument codec e (rangeQuery "$orderBy" f (.string (Bytes.ofText "asc"))) = .ok ids ∧
    (∀ direction, direction ≠ Bytes.ofText "asc" →
      c.findDocument codec e (rangeQuery "$orderBy" f (.string direction)) = .ok ids.reverse) ∧
    ids.Nodup ∧ (∀ id, id ∈ ids ↔ ∃ v, NumberAt codec e c f id v) ∧
    ids.Pairwise fun id id' => ∀ v w, NumberAt codec e c f id v → NumberAt codec e c f id' w →
      v.scaled ≤ w.scaled

/-- **A number comes before another one in the index**: its rank is less, or it is the same and the
id is less. -/
def ComesBefore (codec : Codec) (v : Json) (id : Bytes) (w : Json) (id' : Bytes) : Prop :=
  rank codec v < rank codec w ∨ rank codec v = rank codec w ∧ id < id'

theorem NumberAt.unique {id : Bytes} {v w : Json} (hv : NumberAt codec e c f id v)
    (hw : NumberAt codec e c f id w) : v = w := by
  obtain ⟨doc, hdoc, hfind, -⟩ := hv
  obtain ⟨doc', hdoc', hfind', -⟩ := hw
  obtain rfl := Option.some.inj (hdoc.symm.trans hdoc')
  exact Option.some.inj (hfind.symm.trans hfind')

/-! ### The order of the entries -/

/-- Entries of keys of one length are in the order of the keys, and then of the ids. -/
theorem entry_lt_entry_iff {k k' : Bytes} (h : k.length = k'.length) (id id' : Bytes) :
    k ++ separator ++ id < k' ++ separator ++ id' ↔ k < k' ∨ k = k' ∧ id < id' := by
  rw [List.append_assoc, List.append_assoc, Bytes.append_lt_append_iff h, Bytes.append_left_lt_iff]

/-- **The order of the entries of numbers.** -/
theorem comesBefore_iff {v w : Json} (hv : v.isNumber = true) (hw : w.isNumber = true) {k k' : Bytes}
    (hk : parseValue codec v = .ok k) (hk' : parseValue codec w = .ok k') (id id' : Bytes) :
    k ++ separator ++ id < k' ++ separator ++ id' ↔ ComesBefore codec v id w id' := by
  obtain ⟨hlength, hlt, hgt⟩ := parseValue_lt_iff hv hw hk hk'
  rw [entry_lt_entry_iff hlength, ComesBefore, hlt]
  refine or_congr_right (and_congr_left fun _ => ?_)
  constructor
  · rintro rfl
    exact le_antisymm (not_lt.mp fun h => lt_irrefl k (hgt.mpr h))
      (not_lt.mp fun h => lt_irrefl k (hlt.mpr h))
  · intro hrank
    exact le_antisymm (not_lt.mp fun h => (hgt.mp h).ne' hrank) (not_lt.mp fun h => (hlt.mp h).ne hrank)

/-- What an exact index of numbers is made of. -/
theorem ExactIndex.mem_cursor_iff_number (h : ExactIndex codec e c f)
    (hall : AllNumbers codec e c f) {key id : Bytes} : (key, id) ∈ e.cursor (c.getIndexCfName f) ↔
      ∃ v k, NumberAt codec e c f id v ∧ parseValue codec v = .ok k ∧ key = k ++ separator ++ id := by
  rw [StorageEngine.mem_cursor]
  constructor
  · intro hlookup
    obtain ⟨doc, hdoc, rfl, v, k, hv, hk, rfl⟩ := h.sound key id hlookup
    exact ⟨v, k, ⟨doc, hdoc, hv, hall _ doc v hdoc hv⟩, hk, rfl⟩
  · rintro ⟨v, k, ⟨doc, hdoc, hv, -⟩, hk, rfl⟩
    have hfield : hasIndexField doc.data_ f = true := Option.isSome_iff_exists.mpr ⟨v, hv⟩
    obtain ⟨key, hat, rfl, hlookup⟩ := h.complete id doc hdoc hfield
    have hat' : doc.EntryAt codec f (k ++ separator ++ doc.id_) := ⟨v, k, hv, hk, rfl⟩
    rwa [hat.unique hat'] at hlookup

/-! ### Walking it -/

/-- **What `$orderBy` comes to**, for each word for the direction. -/
theorem findDocument_direction (hindex : c.getIndexCfName f ∈ e.columnFamilies_)
    (direction : Bytes) : c.findDocument codec e (rangeQuery "$orderBy" f (.string direction)) =
      .ok (if direction = Bytes.ofText "asc" then (e.cursor (c.getIndexCfName f)).map Prod.snd
        else ((e.cursor (c.getIndexCfName f)).map Prod.snd).reverse) := by
  by_cases hasc : direction = Bytes.ofText "asc"
  · subst hasc
    rw [if_pos rfl, findDocument_orderBy hindex]
  · have hstep : c.findStep codec e (e.getIndexNames c.name_) (Bytes.ofText "$orderBy")
        (.object [(f, .string direction)]) [] =
        .ok (some ((e.cursor (c.getIndexCfName f)).map Prod.snd).reverse) := by
      rw [Collection.findStep, if_neg (by decide), if_neg (by decide), if_neg (by decide),
        if_neg (by decide), if_neg (by decide), if_pos rfl, Collection.findOrdered]
      simp only [Json.firstEntry, ok_bind, Json.getString, StorageEngine.fetchDocIdsByOrder,
        e.fetchDocIds_of_mem hindex, if_neg hasc, List.nil_append, List.map_reverse]
      rfl
    rw [if_neg hasc, Collection.findDocument, rangeQuery]
    simp only [Json.entries, ok_bind, Collection.findAll, hstep]

section Sorted

variable (h : ExactIndex codec e c f) (hall : AllNumbers codec e c f)

include h hall

/-- Numbers that are never out of order are sorted. -/
theorem numbersSorted_of_comesBefore (hcondition : ∀ id v id' w, NumberAt codec e c f id v →
    NumberAt codec e c f id' w → ComesBefore codec v id w id' → v.scaled ≤ w.scaled) :
    NumbersSorted codec e c f := by
  have hsorted := e.sorted_cursor (c.getIndexCfName f)
  have hmem (id : Bytes) : id ∈ (e.cursor (c.getIndexCfName f)).map Prod.snd ↔
      ∃ v, NumberAt codec e c f id v := by
    constructor
    · intro hid
      obtain ⟨⟨key, id⟩, hy, rfl⟩ := List.mem_map.mp hid
      obtain ⟨v, k, hv, -⟩ := (h.mem_cursor_iff_number hall).mp hy
      exact ⟨v, hv⟩
    · rintro ⟨v, hv⟩
      obtain ⟨word, hk, -⟩ := @parseValue_number codec v hv.choose_spec.2.2
      exact List.mem_map.mpr ⟨_, (h.mem_cursor_iff_number hall).mpr ⟨v, _, hv, hk, rfl⟩, rfl⟩
  refine ⟨_, findDocument_orderBy h.mem, fun direction hne => ?_,
    h.nodup (hsorted.imp fun hlt heq => ?_) (fun y hy => hy), hmem, ?_⟩
  · rw [findDocument_direction h.mem, if_neg hne]
  · exact absurd (heq ▸ hlt) (lt_irrefl _)
  · refine List.pairwise_map.mpr (List.Pairwise.imp_of_mem ?_ hsorted)
    rintro ⟨key, id⟩ ⟨key', id'⟩ hy hy' hlt v w hv hw
    obtain ⟨v', k, hv', hk, rfl⟩ := (h.mem_cursor_iff_number hall).mp hy
    obtain ⟨w', k', hw', hk', rfl⟩ := (h.mem_cursor_iff_number hall).mp hy'
    obtain rfl := hv.unique hv'
    obtain rfl := hw.unique hw'
    exact hcondition id v id' w hv hw
      ((comesBefore_iff hv.choose_spec.2.2 hw.choose_spec.2.2 hk hk' id id').mp hlt)

/-- **When `$orderBy` sorts numbers**: when none precedes a lesser one. -/
theorem numbersSorted_iff : NumbersSorted codec e c f ↔ ∀ id v id' w, NumberAt codec e c f id v →
    NumberAt codec e c f id' w → ComesBefore codec v id w id' → v.scaled ≤ w.scaled := by
  refine ⟨?_, numbersSorted_of_comesBefore h hall⟩
  rintro ⟨ids, hids, -, -, -, hordered⟩ id v id' w hv hw hbefore
  obtain rfl := Except.ok.inj ((findDocument_orderBy h.mem).symm.trans hids)
  obtain ⟨word, hk, -⟩ := @parseValue_number codec _ hv.choose_spec.2.2
  obtain ⟨word', hk', -⟩ := @parseValue_number codec _ hw.choose_spec.2.2
  have hlt := (comesBefore_iff hv.choose_spec.2.2 hw.choose_spec.2.2 hk hk' id id').mpr hbefore
  exact (e.sorted_cursor (c.getIndexCfName f)).rel_of_lt (List.pairwise_map.mp hordered)
    ((h.mem_cursor_iff_number hall).mpr ⟨v, _, hv, hk, rfl⟩)
    ((h.mem_cursor_iff_number hall).mpr ⟨w, _, hw, hk', rfl⟩) hlt v w hv hw

end Sorted

/-- **Doubles are sorted**, all of them. -/
theorem numbersSorted_of_floats (h : ExactIndex codec e c f)
    (hfloats : ∀ id doc v, e.document codec c.name_ id = some doc → doc.data_.find? f = some v →
      ∃ bits, v = .float bits) : NumbersSorted codec e c f := by
  have hall : AllNumbers codec e c f := by
    intro id doc v hdoc hv
    obtain ⟨bits, rfl⟩ := hfloats id doc v hdoc hv
    rfl
  refine numbersSorted_of_comesBefore h hall ?_
  rintro id v id' w ⟨doc, hdoc, hv, -⟩ ⟨doc', hdoc', hw, -⟩ hbefore
  obtain ⟨a, rfl⟩ := hfloats id doc v hdoc hv
  obtain ⟨b, rfl⟩ := hfloats id' doc' w hdoc' hw
  have hle : Binary64.signMagnitude a ≤ Binary64.signMagnitude b := by
    rcases hbefore with hlt | ⟨heq, -⟩
    · exact hlt.le
    · exact heq.le
  change Binary64.scaled a ≤ Binary64.scaled b
  by_cases hzeros : Binary64.Zeros b a
  · exact (Binary64.scaled_eq_of_zeros hzeros).ge
  · have hcmp := Binary64.cmp_signMagnitude_eq_iff.mpr hzeros
    exact not_lt.mp fun hlt => not_lt.mpr hle ((cmp_eq_cmp_iff.mp hcmp).1.mpr hlt)

/-! ### An index of one number -/

theorem numbersSorted_oneNumber : NumbersSorted .standard (oneNumber 5) letterC (Bytes.ofText "f") := by
  have hnumber {id : Bytes} {doc : Document} {v : Json}
      (hdoc : (oneNumber 5).document .standard letterC.name_ id = some doc)
      (hv : doc.data_.find? (Bytes.ofText "f") = some v) : v = .integer 5 := by
    obtain ⟨-, rfl⟩ := document_oneNumber.mp hdoc
    exact (Option.some.inj hv).symm
  refine (numbersSorted_iff (exactIndex_oneNumber 5) fun id doc v hdoc hv => ?_).mpr ?_
  · rw [hnumber hdoc hv]
    rfl
  · rintro id v id' w ⟨doc, hdoc, hv, -⟩ ⟨doc', hdoc', hw, -⟩ -
    rw [hnumber hdoc hv, hnumber hdoc' hw]

end AnuDB
