import AnuDB.NumberKeys

/-!
# Integer keys: two decoders, and the sum of the encoder

A key of an integer is decoded in two places. The collection flips the sign bit of the word, the
engine takes `INT64_MIN` away from it, and both are the move of an unsigned word down by `2 ^ 63`
(`AnuDB.toInt_sub_minValue`, next to `AnuDB.toInt_xor_signBit`). So they are one map, from eight
bytes onto the integers of sixty-four bits, and it keeps the order (`AnuDB.decoders_agree`).

The encoder moves the value up by the same amount, and does so in signed arithmetic: of the two
additions of `value + INT64_MAX + 1` the first goes over the top for every positive value, and the
second for zero too. In a build whose sums wrap around what comes of it is right, and what is
encoded is decoded; what the language promises is nothing (`AnuDB.encodesInRange_iff`).
-/

namespace AnuDB

/-! ### Two decoders -/

/-- `StorageEngine::DecodeIntKey`: zero for what does not have eight bytes. The subtraction is
unsigned, and `INT64_MIN` is converted for it. -/
def StorageEngine.decodeIntKey (encoded : Bytes) : Int64 :=
  if encoded.length ≠ 8 then 0
  else (Bytes.ofBigEndian encoded - Int64.minValue.toUInt64).toInt64

theorem StorageEngine.decodeIntKey_eq {s : Bytes} (hs : s.length = 8) :
    decodeIntKey s = (Bytes.ofBigEndian s - Int64.minValue.toUInt64).toInt64 :=
  if_neg (not_not.mpr hs)

/-- The offset, taken away. -/
theorem toInt_sub_minValue (word : UInt64) :
    (word - Int64.minValue.toUInt64).toInt64.toInt = (word.toNat : ℤ) - 2 ^ 63 := by
  have hlt := word.toNat_lt
  have hmin : Int64.minValue.toUInt64.toNat = 2 ^ 63 := by decide
  have hsub : (word - Int64.minValue.toUInt64).toNat = (2 ^ 64 - 2 ^ 63 + word.toNat) % 2 ^ 64 := by
    rw [UInt64.toNat_sub, hmin]
  have hbmod : (word - Int64.minValue.toUInt64).toInt64.toInt =
      ((word - Int64.minValue.toUInt64).toNat : ℤ).bmod (2 ^ 64) :=
    BitVec.toInt_eq_toNat_bmod _
  rw [hbmod, hsub, Int.bmod_def]
  omega

/-- **Eight bytes mean the same to both decoders.** -/
theorem decodeIntKey_eq_some {s : Bytes} (hs : s.length = 8) :
    decodeIntKey s = some (StorageEngine.decodeIntKey s) := by
  rw [decodeIntKey, if_pos hs, StorageEngine.decodeIntKey_eq hs, Option.some.injEq,
    ← Int64.toInt_inj, toInt_xor_signBit, toInt_sub_minValue]

theorem toInt_decodeIntKey_bigEndian (word : UInt64) :
    (StorageEngine.decodeIntKey (Bytes.bigEndian word)).toInt = (word.toNat : ℤ) - 2 ^ 63 := by
  rw [StorageEngine.decodeIntKey_eq (Bytes.length_bigEndian word), Bytes.ofBigEndian_bigEndian,
    toInt_sub_minValue]

/-- **What is encoded is decoded**, where sums wrap around. -/
theorem decodeIntKey_encodeIntKey (v : Int32) :
    StorageEngine.decodeIntKey (encodeIntKey .standard v) = v.toInt64 := by
  have hword : ((Codec.standard.shifted v).toNat : ℤ) = v.toInt + 2 ^ 63 := Codec.toNat_wrapped v
  rw [← Int64.toInt_inj, Int32.toInt_toInt64, encodeIntKey, toInt_decodeIntKey_bigEndian, hword]
  omega

/-- Every integer of sixty-four bits is decoded from a word. -/
theorem exists_decodeIntKey_eq (x : Int64) :
    ∃ word, StorageEngine.decodeIntKey (Bytes.bigEndian word) = x := by
  refine ⟨x.toUInt64 + Int64.minValue.toUInt64, ?_⟩
  rw [StorageEngine.decodeIntKey_eq (Bytes.length_bigEndian _), Bytes.ofBigEndian_bigEndian,
    UInt64.add_sub_cancel]
  rfl

/-- **Keys are in the order of what they are decoded to.** -/
theorem decodeIntKey_lt_iff {s t : Bytes} (hs : s.length = 8) (ht : t.length = 8) :
    StorageEngine.decodeIntKey s < StorageEngine.decodeIntKey t ↔ s < t := by
  rw [← Bytes.bigEndian_ofBigEndian hs, ← Bytes.bigEndian_ofBigEndian ht, Bytes.bigEndian_lt_iff,
    Int64.lt_iff_toInt_lt, toInt_decodeIntKey_bigEndian, toInt_decodeIntKey_bigEndian,
    UInt64.lt_iff_toNat_lt]
  omega

/-- **The decoders are one map**: both give back what was encoded, they agree on every eight
bytes, and what they do there is a bijection onto the integers of sixty-four bits that keeps the
order. -/
theorem decoders_agree :
    (∀ v : Int32, decodeIntKey (encodeIntKey .standard v) = some v.toInt64 ∧
      StorageEngine.decodeIntKey (encodeIntKey .standard v) = v.toInt64) ∧
    (∀ s : Bytes, s.length = 8 → decodeIntKey s = some (StorageEngine.decodeIntKey s)) ∧
    Set.BijOn StorageEngine.decodeIntKey {s | s.length = 8} Set.univ ∧
    ∀ s t : Bytes, s.length = 8 → t.length = 8 →
      (s < t ↔ StorageEngine.decodeIntKey s < StorageEngine.decodeIntKey t) := by
  have hinj : Set.InjOn StorageEngine.decodeIntKey {s | s.length = 8} := by
    intro s hs t ht heq
    -- bytes that differ are in some order, and so is what they are decoded to
    rcases lt_trichotomy s t with hlt | hst | hlt
    · exact absurd ((decodeIntKey_lt_iff hs ht).mpr hlt) (heq ▸ Int64.lt_irrefl)
    · exact hst
    · exact absurd ((decodeIntKey_lt_iff ht hs).mpr hlt) (heq ▸ Int64.lt_irrefl)
  refine ⟨fun v => ?_, fun s => decodeIntKey_eq_some, ⟨fun s _ => trivial, hinj, fun x _ => ?_⟩,
    fun s t hs ht => (decodeIntKey_lt_iff hs ht).symm⟩
  · have hlength : (encodeIntKey .standard v).length = 8 := Bytes.length_bigEndian _
    refine ⟨?_, decodeIntKey_encodeIntKey v⟩
    rw [decodeIntKey_eq_some hlength, decodeIntKey_encodeIntKey]
  · obtain ⟨word, hword⟩ := exists_decodeIntKey_eq x
    exact ⟨Bytes.bigEndian word, Bytes.length_bigEndian word, hword⟩

/-! ### The sum of the encoder -/

/-- **The key of an integer is computed within the ranges**: the conversion to `int` keeps the
value, and every signed result on the way to the key fits. -/
def EncodesInRange (i : ℤ) : Prop :=
  (Int32.ofInt i).toInt = i ∧ ∀ x ∈ signedSums (Int32.ofInt i), FitsInt64 x

/-- **Which keys are computed within the ranges**: those of the negative integers of thirty-two
bits. -/
theorem encodesInRange_iff (i : ℤ) : EncodesInRange i ↔ -2 ^ 31 ≤ i ∧ i < 0 := by
  have hlo := (Int32.ofInt i).le_toInt
  rw [EncodesInRange, fitsInt64_signedSums_iff]
  constructor
  · rintro ⟨hvalue, hneg⟩
    omega
  · rintro ⟨hle, hneg⟩
    have hvalue : (Int32.ofInt i).toInt = i := Int32.toInt_ofInt_of_le hle (by omega)
    exact ⟨hvalue, hvalue.trans_lt hneg⟩

/-- **Zero goes over the top**: `INT64_MAX` is added to it, and then one. -/
theorem not_encodesInRange_zero : ¬EncodesInRange 0 := by
  rintro ⟨-, hfits⟩
  have hover := (hfits (2 ^ 63) (by decide)).2
  exact absurd hover (by decide)

end AnuDB
