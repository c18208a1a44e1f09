import AnuDB.Index
import AnuDB.Query
import Mathlib.Algebra.Order.Ring.Int

/-!
# Are range queries exact?

`$gt` and `$lt` compare the keys of values, byte by byte. The keys of numbers are in the
order of `AnuDB.rank`, so what the queries find depends on how that order compares with
the numbers: it agrees for doubles but for the two zeros, for integers as far as thirty-two
bits reach and no sum overflows, and hardly ever between an integer and a double. The key of a string may be
anywhere among the keys of numbers, and `true`, `false` and null have keys too.

With an index that is as it should be (`AnuDB.ExactIndex`), the ids the two queries find
are those of the numbers greater and less than the operand exactly if every number there
is compares with the operand as its key does (`AnuDB.KeysAgree`) and every other key
begins with the key of the operand (`AnuDB.rangeExact_iff`). What the key of an integer is may
depend on the build; two numbers compare as their keys do in every build under a condition on
their values alone (`AnuDB.forall_keysAgree_iff`).
-/

namespace AnuDB

variable {codec : Codec} {e : StorageEngine} {c : Collection} {f : Bytes} {x : Json}

/-- **An index with one entry for each document that has the field**, and no others. -/
structure ExactIndex (codec : Codec) (e : StorageEngine) (c : Collection) (f : Bytes) :
    Prop where
  /-- The index is there. -/
  mem : c.getIndexCfName f ∈ e.columnFamilies_
  /-- Every entry is of a document. -/
  sound : ∀ key id, e.lookup (c.getIndexCfName f) key = some id →
    ∃ doc, e.document codec c.name_ id = some doc ∧ doc.id_ = id ∧ doc.EntryAt codec f key
  /-- Every document with the field has its entry. -/
  complete : ∀ id doc, e.document codec c.name_ id = some doc → hasIndexField doc.data_ f = true →
    ∃ key, doc.EntryAt codec f key ∧ doc.id_ = id ∧ e.lookup (c.getIndexCfName f) key = some id

/-- **The value of a number**, in units of `2 ^ -1074`. -/
def Json.scaled : Json → ℤ
  | .integer i => Binary64.scaledInt i
  | .float bits => Binary64.scaled bits
  | _ => 0

/-- **Keys agree with values** for two numbers: doubles are not the two zeros, and where one is an
integer the ranks compare as the values do. -/
def KeysAgree (codec : Codec) : Json → Json → Prop
  | .integer i, .integer j => cmp (rank codec (.integer i)) (rank codec (.integer j)) = cmp i j
  | .float a, .float b => ¬Binary64.Zeros a b
  | v, w => cmp (rank codec v) (rank codec w) = cmp v.scaled w.scaled

/-- The query for the values greater, or less, than an operand. -/
def rangeQuery (op : String) (f : Bytes) (operand : Json) : Json :=
  .object [(Bytes.ofText op, .object [(f, operand)])]

/-- **The query finds the documents whose values are numbers that compare so**, each
once. -/
def Finds (codec : Codec) (e : StorageEngine) (c : Collection) (f : Bytes) (query : Json)
    (compares : ℤ → Prop) : Prop :=
  ∃ ids, c.findDocument codec e query = .ok ids ∧ ids.Nodup ∧ ∀ id, id ∈ ids ↔
    ∃ doc v, e.document codec c.name_ id = some doc ∧ doc.data_.find? f = some v ∧
      v.isNumber = true ∧ compares v.scaled

/-- **Both range queries are exact** for an operand. -/
def RangeExact (codec : Codec) (e : StorageEngine) (c : Collection) (f : Bytes) (x : Json) :
    Prop :=
  Finds codec e c f (rangeQuery "$gt" f x) (x.scaled < ·) ∧
    Finds codec e c f (rangeQuery "$lt" f x) (· < x.scaled)

/-! ### Keys of numbers -/

theorem cmp_eq_cmp_iff {α β : Type} [LinearOrder α] [LinearOrder β] {a b : α} {a' b' : β} :
    cmp a b = cmp a' b' ↔ (a < b ↔ a' < b') ∧ (b < a ↔ b' < a') := by
  refine ⟨fun h => ⟨lt_iff_lt_of_cmp_eq_cmp h, lt_iff_lt_of_cmp_eq_cmp (cmp_eq_cmp_symm.mp h)⟩, ?_⟩
  rintro ⟨hlt, hgt⟩
  rcases lt_trichotomy a b with h | rfl | h
  · rw [h.cmp_eq_lt, (hlt.mp h).cmp_eq_lt]
  · have h₁ : ¬a' < b' := fun h => lt_irrefl a (hlt.mpr h)
    have h₂ : ¬b' < a' := fun h => lt_irrefl a (hgt.mpr h)
    rw [cmp_self_eq_eq, eq_comm, cmp_eq_eq_iff]
    exact le_antisymm (not_lt.mp h₂) (not_lt.mp h₁)
  · rw [h.cmp_eq_gt, (hgt.mp h).cmp_eq_gt]

theorem cmp_scaledInt (i j : ℤ) : cmp (Binary64.scaledInt i) (Binary64.scaledInt j) = cmp i j := by
  have hpos : (0 : ℤ) < 2 ^ 1074 := pow_pos (by decide) 1074
  rw [cmp_eq_cmp_iff, Binary64.scaledInt, Binary64.scaledInt, mul_lt_mul_iff_left₀ hpos,
    mul_lt_mul_iff_left₀ hpos]
  exact ⟨Iff.rfl, Iff.rfl⟩

/-- Agreement is that ranks compare as values. -/
theorem keysAgree_iff {v w : Json} :
    KeysAgree codec v w ↔ cmp (rank codec v) (rank codec w) = cmp v.scaled w.scaled := by
  cases v with
  | integer i =>
    cases w with
    | integer j =>
      have hscaled : cmp (Json.integer i).scaled (Json.integer j).scaled = cmp i j :=
        cmp_scaledInt i j
      rw [hscaled]
      exact Iff.rfl
    | _ => exact Iff.rfl
  | float a =>
    cases w with
    | float b => exact Binary64.cmp_signMagnitude_eq_iff.symm
    | _ => exact Iff.rfl
  | _ => exact Iff.rfl

/-! ### Every build -/

/-- **Keys agree with values in every build** for two numbers: no sum of an integer overflows,
unless the numbers are one integer, and the thirty-two bits and the bit patterns compare as the
values do. -/
def SurelyAgree : Json → Json → Prop
  | .integer i, .integer j => i = j ∨ i.bmod (2 ^ 32) < 0 ∧ j.bmod (2 ^ 32) < 0 ∧
    cmp (i.bmod (2 ^ 32)) (j.bmod (2 ^ 32)) = cmp i j
  | .float a, .float b => ¬Binary64.Zeros a b
  | .integer i, .float b => i.bmod (2 ^ 32) < 0 ∧
    cmp (i.bmod (2 ^ 32)) (Binary64.signMagnitude b) =
      cmp (Binary64.scaledInt i) (Binary64.scaled b)
  | .float a, .integer j => j.bmod (2 ^ 32) < 0 ∧
    cmp (j.bmod (2 ^ 32)) (Binary64.signMagnitude a) =
      cmp (Binary64.scaledInt j) (Binary64.scaled a)
  | _, _ => False

theorem forall_integers_agree_iff {i j : ℤ} :
    (∀ codec, KeysAgree codec (.integer i) (.integer j)) ↔
      SurelyAgree (.integer i) (.integer j) := by
  constructor
  · intro h
    by_cases hneg : i.bmod (2 ^ 32) < 0 ∧ j.bmod (2 ^ 32) < 0
    · have hstandard : cmp (rank .standard (.integer i)) (rank .standard (.integer j)) = cmp i j :=
        h .standard
      rw [rank_standard, rank_standard] at hstandard
      exact Or.inr ⟨hneg.1, hneg.2, hstandard⟩
    · rw [not_and_or, not_lt, not_lt] at hneg
      obtain ⟨codec, hrank⟩ := exists_rank_eq hneg
      have hcmp : cmp (rank codec (.integer i)) (rank codec (.integer j)) = cmp i j := h codec
      rw [hrank, cmp_self_eq_eq, eq_comm, cmp_eq_eq_iff] at hcmp
      exact Or.inl hcmp
  · rintro (rfl | ⟨hi, hj, hcmp⟩) codec
    · exact (cmp_self_eq_eq _).trans (cmp_self_eq_eq _).symm
    · change cmp (rank codec (.integer i)) (rank codec (.integer j)) = cmp i j
      rw [rank_of_neg codec hi, rank_of_neg codec hj]
      exact hcmp

/-- An integer whose sum overflows is below a double, or above it, or neither, as the build has
it. -/
theorem forall_mixed_agree_iff {i : ℤ} {bits : UInt64} :
    (∀ codec, KeysAgree codec (.integer i) (.float bits)) ↔
      SurelyAgree (.integer i) (.float bits) := by
  have hagree (codec : Codec) : KeysAgree codec (.integer i) (.float bits) ↔
      cmp (rank codec (.integer i)) (Binary64.signMagnitude bits) =
        cmp (Binary64.scaledInt i) (Binary64.scaled bits) := Iff.rfl
  refine Iff.trans (forall_congr' hagree) ?_
  constructor
  · intro h
    by_cases hneg : i.bmod (2 ^ 32) < 0
    · have hstandard := h .standard
      rw [rank_standard] at hstandard
      exact ⟨hneg, hstandard⟩
    · obtain ⟨word, -, hword⟩ := encodeDoubleKey_eq bits
      have hsame := rank_overflowing (not_lt.mp hneg) fun _ => word
      have hother := rank_overflowing (not_lt.mp hneg) fun _ => ~~~word
      have hlt := word.toNat_lt
      rw [UInt64.toNat_not, UInt64.size] at hother
      have heq : rank (.overflowing fun _ => word) (.integer i) = Binary64.signMagnitude bits := by
        omega
      have hvalue := h (.overflowing fun _ => word)
      rw [heq, cmp_self_eq_eq, eq_comm] at hvalue
      have hrank := h (.overflowing fun _ => ~~~word)
      rw [hvalue, cmp_eq_eq_iff] at hrank
      omega
  · rintro ⟨hneg, hcmp⟩ codec
    rw [rank_of_neg codec hneg]
    exact hcmp

/-- **When keys agree with values in every build.** -/
theorem forall_keysAgree_iff {v w : Json} (hv : v.isNumber = true) (hw : w.isNumber = true) :
    (∀ codec, KeysAgree codec v w) ↔ SurelyAgree v w := by
  cases v with
  | integer i =>
    cases w with
    | integer j => exact forall_integers_agree_iff
    | float bits => exact forall_mixed_agree_iff
    | _ => cases hw
  | float bits =>
    cases w with
    | integer j =>
      refine Iff.trans (forall_congr' fun codec => ?_) (@forall_mixed_agree_iff j bits)
      exact cmp_eq_cmp_symm
    | float bits' => exact forall_const Codec
    | _ => cases hw
  | _ => cases hv

section Entry

variable {v : Json} {key operand : Bytes}

/-- The keys of numbers are eight bytes, in the order of the ranks. -/
theorem parseValue_lt_iff (hv : v.isNumber = true) (hx : x.isNumber = true)
    (hkey : parseValue codec v = .ok key) (hoperand : parseValue codec x = .ok operand) :
    key.length = operand.length ∧ (key < operand ↔ rank codec v < rank codec x) ∧
      (operand < key ↔ rank codec x < rank codec v) := by
  obtain ⟨word, hword, hrank⟩ := @parseValue_number codec _ hv
  obtain ⟨word', hword', hrank'⟩ := @parseValue_number codec _ hx
  obtain rfl : Bytes.bigEndian word = key := Except.ok.inj (hword.symm.trans hkey)
  obtain rfl : Bytes.bigEndian word' = operand := Except.ok.inj (hword'.symm.trans hoperand)
  refine ⟨rfl, ?_, ?_⟩
  · rw [Bytes.bigEndian_lt_iff, UInt64.lt_iff_toNat_lt]
    omega
  · rw [Bytes.bigEndian_lt_iff, UInt64.lt_iff_toNat_lt]
    omega

/-- An entry of a number is before the operand when its key is. -/
theorem entry_lt_iff (h : key.length = operand.length) (id : Bytes) :
    key ++ separator ++ id < operand ++ separator ↔ key < operand := by
  have hle : separator ≤ separator ++ id := Bytes.le_of_isPrefix (List.prefix_append _ _)
  rw [List.append_assoc, Bytes.append_lt_append_iff h]
  exact or_iff_left fun hlt => absurd hlt.2 (not_lt.mpr hle)

/-- An entry of a number is behind those of the operand when its key is. -/
theorem entry_gt_iff (h : key.length = operand.length) (id : Bytes) :
    (operand ++ separator ≤ key ++ separator ++ id ∧
      ¬operand ++ separator <+: key ++ separator ++ id) ↔ operand < key := by
  rw [← not_lt, entry_lt_iff h, List.append_assoc, Bytes.prefix_append_iff_of_length h.symm,
    not_lt, and_iff_left (List.prefix_append separator id)]
  exact ⟨fun hle => lt_of_le_of_ne hle.1 hle.2, fun hlt => ⟨hlt.le, hlt.ne⟩⟩

end Entry

/-! ### What the queries find -/

theorem findDocument_gt {operand : Bytes} (hindex : c.getIndexCfName f ∈ e.columnFamilies_)
    (hx : parseValue codec x = .ok operand) (hne : operand ≠ []) :
    c.findDocument codec e (rangeQuery "$gt" f x) =
      .ok ((Scan.greater (operand ++ separator) (e.cursor (c.getIndexCfName f))).map Prod.snd) := by
  have hstep : c.findStep codec e (e.getIndexNames c.name_) (Bytes.ofText "$gt") (.object [(f, x)]) [] =
      .ok (some ((Scan.greater (operand ++ separator) (e.cursor (c.getIndexCfName f))).map
        Prod.snd)) := by
    rw [Collection.findStep, if_neg (by decide), if_pos rfl, Collection.findDocumentsUsingGt]
    simp only [Json.firstEntry, ok_bind, hx, if_neg hne, StorageEngine.fetchDocIdsForGreater,
      e.fetchDocIds_of_mem hindex]
    rfl
  rw [Collection.findDocument, rangeQuery]
  simp only [Json.entries, ok_bind, Collection.findAll, hstep]

theorem findDocument_lt {operand : Bytes} (hindex : c.getIndexCfName f ∈ e.columnFamilies_)
    (hkeys : ∀ y ∈ e.cursor (c.getIndexCfName f), StorageEngine.hash ∈ y.1)
    (hx : parseValue codec x = .ok operand) (hne : operand ≠ []) :
    c.findDocument codec e (rangeQuery "$lt" f x) =
      .ok ((Scan.lesser (operand ++ separator) (e.cursor (c.getIndexCfName f))).map Prod.snd) := by
  have hstep : c.findStep codec e (e.getIndexNames c.name_) (Bytes.ofText "$lt") (.object [(f, x)]) [] =
      .ok (some ((Scan.lesser (operand ++ separator) (e.cursor (c.getIndexCfName f))).map
        Prod.snd)) := by
    rw [Collection.findStep, if_neg (by decide), if_neg (by decide), if_pos rfl,
      Collection.findDocumentsUsingLt]
    simp only [Json.firstEntry, ok_bind, hx, if_neg hne, e.fetchDocIdsForLesser_of_forall hkeys,
      e.fetchDocIds_of_mem hindex]
    rfl
  rw [Collection.findDocument, rangeQuery]
  simp only [Json.entries, ok_bind, Collection.findAll, hstep]

/-- Every key of an exact index has a `#` in it. -/
theorem ExactIndex.hash_mem (h : ExactIndex codec e c f) :
    ∀ y ∈ e.cursor (c.getIndexCfName f), StorageEngine.hash ∈ y.1 := by
  rintro ⟨key, id⟩ hy
  obtain ⟨doc, -, -, value, k, -, -, rfl⟩ := h.sound key id (StorageEngine.mem_cursor.mp hy)
  have hmem : StorageEngine.hash ∈ separator := by decide
  exact List.mem_append_left _ (List.mem_append_right k hmem)

/-- The entries of an exact index whose keys meet a condition are of the documents whose
keys do. -/
theorem ExactIndex.mem_iff (h : ExactIndex codec e c f) {scan : List (Bytes × Bytes)}
    {Q : Bytes → Prop}
    (hscan : ∀ y, y ∈ scan ↔ y ∈ e.cursor (c.getIndexCfName f) ∧ Q y.1) {id : Bytes} :
    id ∈ scan.map Prod.snd ↔ ∃ doc v k, e.document codec c.name_ id = some doc ∧
      doc.data_.find? f = some v ∧ parseValue codec v = .ok k ∧ Q (k ++ separator ++ id) := by
  constructor
  · intro hid
    obtain ⟨⟨key, id'⟩, hy, rfl⟩ := List.mem_map.mp hid
    obtain ⟨hy, hQ⟩ := (hscan _).mp hy
    obtain ⟨doc, hdoc, rfl, v, k, hv, hk, rfl⟩ := h.sound key id' (StorageEngine.mem_cursor.mp hy)
    exact ⟨doc, v, k, hdoc, hv, hk, hQ⟩
  · rintro ⟨doc, v, k, hdoc, hv, hk, hQ⟩
    have hfield : hasIndexField doc.data_ f = true := Option.isSome_iff_exists.mpr ⟨v, hv⟩
    obtain ⟨key, hat, rfl, hlookup⟩ := h.complete id doc hdoc hfield
    have hat' : doc.EntryAt codec f (k ++ separator ++ doc.id_) := ⟨v, k, hv, hk, rfl⟩
    obtain rfl := hat.unique hat'
    exact List.mem_map.mpr ⟨_, (hscan _).mpr ⟨StorageEngine.mem_cursor.mpr hlookup, hQ⟩, rfl⟩

/-- No id is found twice. -/
theorem ExactIndex.nodup (h : ExactIndex codec e c f) {scan : List (Bytes × Bytes)}
    (hnodup : scan.Nodup) (hscan : ∀ y ∈ scan, y ∈ e.cursor (c.getIndexCfName f)) :
    (scan.map Prod.snd).Nodup := by
  refine hnodup.map_on ?_
  rintro ⟨key, id⟩ hy ⟨key', id'⟩ hy' rfl
  obtain ⟨doc, hdoc, -, hat⟩ := h.sound key id (StorageEngine.mem_cursor.mp (hscan _ hy))
  obtain ⟨doc', hdoc', -, hat'⟩ := h.sound key' id (StorageEngine.mem_cursor.mp (hscan _ hy'))
  obtain rfl : doc = doc' := Option.some.inj (hdoc.symm.trans hdoc')
  rw [hat.unique hat']

/-- **When a scan finds what a query asks for**: when the keys it takes are those of the
numbers that compare so. -/
theorem ExactIndex.finds_iff (h : ExactIndex codec e c f) {scan : List (Bytes × Bytes)}
    {Q : Bytes → Prop} {query : Json} {compares : ℤ → Prop} (hnodup : scan.Nodup)
    (hscan : ∀ y, y ∈ scan ↔ y ∈ e.cursor (c.getIndexCfName f) ∧ Q y.1)
    (hfind : c.findDocument codec e query = .ok (scan.map Prod.snd)) :
    Finds codec e c f query compares ↔ ∀ id doc v k, e.document codec c.name_ id = some doc →
      doc.data_.find? f = some v → parseValue codec v = .ok k →
      (Q (k ++ separator ++ id) ↔ v.isNumber = true ∧ compares v.scaled) := by
  constructor
  · rintro ⟨ids, hids, -, hmem⟩ id doc v k hdoc hv hk
    obtain rfl : scan.map Prod.snd = ids := Except.ok.inj (hfind.symm.trans hids)
    have hiff := (h.mem_iff hscan).symm.trans (hmem id)
    constructor
    · intro hQ
      obtain ⟨doc', v', hdoc', hv', hcompares⟩ := hiff.mp ⟨doc, v, k, hdoc, hv, hk, hQ⟩
      obtain rfl : doc = doc' := Option.some.inj (hdoc.symm.trans hdoc')
      obtain rfl : v = v' := Option.some.inj (hv.symm.trans hv')
      exact hcompares
    · intro hcompares
      obtain ⟨doc', v', k', hdoc', hv', hk', hQ⟩ := hiff.mpr ⟨doc, v, hdoc, hv, hcompares⟩
      obtain rfl : doc = doc' := Option.some.inj (hdoc.symm.trans hdoc')
      obtain rfl : v = v' := Option.some.inj (hv.symm.trans hv')
      obtain rfl : k = k' := Except.ok.inj (hk.symm.trans hk')
      exact hQ
  · intro hcondition
    refine ⟨_, hfind, h.nodup hnodup fun y hy => ((hscan y).mp hy).1, fun id => ?_⟩
    rw [h.mem_iff hscan]
    constructor
    · rintro ⟨doc, v, k, hdoc, hv, hk, hQ⟩
      exact ⟨doc, v, hdoc, hv, (hcondition id doc v k hdoc hv hk).mp hQ⟩
    · rintro ⟨doc, v, hdoc, hv, hcompares⟩
      -- every document with the field has a key
      have hfield : hasIndexField doc.data_ f = true := Option.isSome_iff_exists.mpr ⟨v, hv⟩
      obtain ⟨-, ⟨v', k, hv', hk, -⟩, -, -⟩ := h.complete id doc hdoc hfield
      obtain rfl : v = v' := Option.some.inj (hv.symm.trans hv')
      exact ⟨doc, v, k, hdoc, hv, hk, (hcondition id doc v k hdoc hv hk).mpr hcompares⟩

/-- **The condition on what is indexed**: the numbers compare with the operand as their
keys do, and the entry of any other value begins with the operand's key and `#`. -/
def RangeCondition (codec : Codec) (e : StorageEngine) (c : Collection) (f : Bytes) (x : Json) :
    Prop :=
  ∀ id doc v k operand, e.document codec c.name_ id = some doc → doc.data_.find? f = some v →
    parseValue codec v = .ok k → parseValue codec x = .ok operand →
    if v.isNumber then KeysAgree codec v x else operand ++ separator <+: k ++ separator ++ id

/-- **When range queries are exact.** -/
theorem rangeExact_iff (h : ExactIndex codec e c f) (hx : x.isNumber = true) :
    RangeExact codec e c f x ↔ RangeCondition codec e c f x := by
  obtain ⟨word, hoperand, -⟩ := @parseValue_number codec _ hx
  have hne : Bytes.bigEndian word ≠ [] := by simp [Bytes.bigEndian]
  generalize Bytes.bigEndian word = operand at hoperand hne
  have hsorted := e.sorted_cursor (c.getIndexCfName f)
  rw [RangeExact, h.finds_iff
      (Q := fun key => operand ++ separator ≤ key ∧ ¬operand ++ separator <+: key)
      (Scan.nodup_greater hsorted) (fun y => Scan.mem_greater hsorted)
      (findDocument_gt h.mem hoperand hne),
    h.finds_iff (Q := (· < operand ++ separator))
      (Scan.nodup_lesser hsorted) (fun y => Scan.mem_lesser hsorted)
      (findDocument_lt h.mem h.hash_mem hoperand hne)]
  have hentry {id k : Bytes} {v : Json} (hk : parseValue codec v = .ok k) :
      ((operand ++ separator ≤ k ++ separator ++ id ∧ ¬operand ++ separator <+: k ++ separator ++ id ↔
        v.isNumber = true ∧ x.scaled < v.scaled) ∧
      (k ++ separator ++ id < operand ++ separator ↔ v.isNumber = true ∧ v.scaled < x.scaled)) ↔
      if v.isNumber then KeysAgree codec v x else operand ++ separator <+: k ++ separator ++ id := by
    by_cases hv : v.isNumber = true
    · -- a number is behind or before the operand as its rank is
      obtain ⟨hlength, hlt, hgt⟩ := parseValue_lt_iff hv hx hk hoperand
      rw [if_pos hv, entry_gt_iff hlength, entry_lt_iff hlength, hlt, hgt, keysAgree_iff,
        cmp_eq_cmp_iff, and_iff_right hv, and_iff_right hv, and_comm]
    · -- any other value should be neither
      have hnone (q : Prop) : ¬(v.isNumber = true ∧ q) := fun hq => hv hq.1
      rw [if_neg hv, iff_false_right (hnone _), iff_false_right (hnone _), not_and, not_not, not_lt]
      exact ⟨fun hneither => hneither.1 hneither.2, fun hp => ⟨fun _ => hp, Bytes.le_of_isPrefix hp⟩⟩
  constructor
  · rintro ⟨hgt, hlt⟩ id doc v k operand' hdoc hv hk hoperand'
    obtain rfl : operand = operand' := Except.ok.inj (hoperand.symm.trans hoperand')
    exact (hentry hk).mp ⟨hgt id doc v k hdoc hv hk, hlt id doc v k hdoc hv hk⟩
  · intro hcondition
    exact ⟨fun id doc v k hdoc hv hk =>
        ((hentry hk).mpr (hcondition id doc v k operand hdoc hv hk hoperand)).1,
      fun id doc v k hdoc hv hk =>
        ((hentry hk).mpr (hcondition id doc v k operand hdoc hv hk hoperand)).2⟩

/-! ### An index of one document -/

/-- An indexed collection with one document, which has a number in the field. -/
def oneNumber (n : ℤ) : StorageEngine :=
  Operation.afterAll .standard .fresh [.createCollection letterC.name_,
    .createIndex letterC (Bytes.ofText "f"),
    .document letterC (.create ⟨0, fun _ => 0⟩ (numbered n))]

/-- The document as it is stored. -/
def numberedStored (n : ℤ) : Document :=
  ⟨Bytes.ofText "a", .object [(idField, .string (Bytes.ofText "a")), (Bytes.ofText "f", .integer n)]⟩

theorem document_oneNumber {n : ℤ} {id : Bytes} {doc : Document} :
    (oneNumber n).document .standard letterC.name_ id = some doc ↔
      id = Bytes.ofText "a" ∧ doc = numberedStored n := by
  have hcursor : (oneNumber n).cursor letterC.name_ =
      [(Bytes.ofText "a", (numberedStored n).to_msgpack .standard)] := by rfl
  have hlookup (serialized : Bytes) : (oneNumber n).lookup letterC.name_ id = some serialized ↔
      id = Bytes.ofText "a" ∧ serialized = (numberedStored n).to_msgpack .standard := by
    rw [← StorageEngine.mem_cursor, hcursor, List.mem_singleton, Prod.mk.injEq]
  rw [StorageEngine.document, Option.bind_eq_some_iff]
  constructor
  · rintro ⟨serialized, hstored, hdoc⟩
    obtain ⟨hid, rfl⟩ := (hlookup serialized).mp hstored
    rw [Document.from_msgpack_to_msgpack] at hdoc
    exact ⟨hid, (Option.some.inj hdoc).symm⟩
  · rintro ⟨hid, rfl⟩
    refine ⟨_, (hlookup _).mpr ⟨hid, rfl⟩, ?_⟩
    rw [Document.from_msgpack_to_msgpack]
    rfl

theorem exactIndex_oneNumber (n : ℤ) :
    ExactIndex .standard (oneNumber n) letterC (Bytes.ofText "f") := by
  have hcursor : (oneNumber n).cursor (letterC.getIndexCfName (Bytes.ofText "f")) =
      [(encodeIntKey .standard (Int32.ofInt n) ++ separator ++ Bytes.ofText "a", Bytes.ofText "a")] := by rfl
  have hlookup (key id : Bytes) :
      (oneNumber n).lookup (letterC.getIndexCfName (Bytes.ofText "f")) key = some id ↔
        key = encodeIntKey .standard (Int32.ofInt n) ++ separator ++ Bytes.ofText "a" ∧
          id = Bytes.ofText "a" := by
    rw [← StorageEngine.mem_cursor, hcursor, List.mem_singleton, Prod.mk.injEq]
  have hat : (numberedStored n).EntryAt .standard (Bytes.ofText "f")
      (encodeIntKey .standard (Int32.ofInt n) ++ separator ++ Bytes.ofText "a") := ⟨_, _, rfl, rfl, rfl⟩
  refine ⟨StorageEngine.mem_of_lookup ((hlookup _ _).mpr ⟨rfl, rfl⟩), ?_, ?_⟩
  · intro key id hentry
    obtain ⟨rfl, rfl⟩ := (hlookup key id).mp hentry
    exact ⟨_, document_oneNumber.mpr ⟨rfl, rfl⟩, rfl, hat⟩
  · intro id doc hdoc _
    obtain ⟨rfl, rfl⟩ := document_oneNumber.mp hdoc
    exact ⟨_, hat, rfl, (hlookup _ _).mpr ⟨rfl, rfl⟩⟩

theorem rangeExact_five : RangeExact .standard (oneNumber 5) letterC (Bytes.ofText "f") (.integer 1) := by
  refine (rangeExact_iff (exactIndex_oneNumber 5) rfl).mpr ?_
  intro id doc v k operand hdoc hv _ _
  obtain ⟨rfl, rfl⟩ := document_oneNumber.mp hdoc
  obtain rfl : Json.integer 5 = v := Option.some.inj (Eq.trans (by rfl) hv)
  have hagree : KeysAgree .standard (.integer 5) (.integer 1) := by
    change cmp (rank .standard (.integer 5)) (rank .standard (.integer 1)) = cmp (5 : ℤ) 1
    rw [rank_standard, rank_standard]
    decide
  exact hagree

/-- **An integer that needs more than thirty-two bits is not found**: its key is that of
what is left of it. -/
theorem not_rangeExact_of_wrap :
    ExactIndex .standard (oneNumber (2 ^ 32 - 1)) letterC (Bytes.ofText "f") ∧
      ¬RangeExact .standard (oneNumber (2 ^ 32 - 1)) letterC (Bytes.ofText "f") (.integer (-1)) := by
  refine ⟨exactIndex_oneNumber _, ?_⟩
  rintro ⟨⟨ids, hids, -, hmem⟩, -⟩
  obtain rfl : [] = ids := Except.ok.inj (Eq.trans (by rfl) hids)
  refine List.not_mem_nil ((hmem (Bytes.ofText "a")).mpr ⟨numberedStored (2 ^ 32 - 1),
    .integer (2 ^ 32 - 1), document_oneNumber.mpr ⟨rfl, rfl⟩, rfl, rfl, ?_⟩)
  decide +kernel

end AnuDB
