import AnuDB.KeyIdentity

/-!
# The keys of numbers, sorted and read back

The keys of doubles are all that keys should be. What is encoded is decoded, every eight bytes are
the key of a pattern, and the keys sort as the patterns do when they are read as a sign and a
magnitude (`AnuDB.doubleKeys_ordered`).

The key of an integer is that of its last thirty-two bits. So the integers come in windows of
`2 ^ 32`: within one their keys are in order, and of two windows each has all the keys of the other
(`AnuDB.intKeysOrdered_iff`, for the build whose sums wrap around). The decoder has sixty-four bits
to give back and gets thirty-two.
-/

namespace AnuDB

/-! ### Keys read back -/

/-- The bit that `1ULL << 63` is. -/
def signBit : UInt64 := (1 : UInt64) <<< 63

theorem signBit_eq : signBit = 0x8000000000000000 := rfl

theorem not_signBit_eq : ~~~signBit = 0x7FFFFFFFFFFFFFFF := rfl

/-- `Collection::decodeIntKey`: nothing where the assertion on the size fails. -/
def decodeIntKey (encoded : Bytes) : Option Int64 :=
  if encoded.length = 8 then some (Bytes.ofBigEndian encoded ^^^ signBit).toInt64 else none

/-- `Collection::decodeDoubleKey`: nothing where the assertion on the size fails. -/
def decodeDoubleKey (encoded : Bytes) : Option UInt64 :=
  if encoded.length = 8 then
    let value := Bytes.ofBigEndian encoded
    some (if value &&& signBit = 0 then ~~~value else value &&& ~~~signBit)
  else none

theorem decodeDoubleKey_bigEndian (word : UInt64) : decodeDoubleKey (Bytes.bigEndian word) =
    some (if Binary64.negative word then word &&& ~~~signBit else ~~~word) := by
  have hmask : word &&& signBit = 0 ↔ ¬Binary64.negative word := by
    rw [← Binary64.and_signBit_ne_zero_iff, not_not, signBit_eq]
  rw [decodeDoubleKey, if_pos (Bytes.length_bigEndian word), Bytes.ofBigEndian_bigEndian]
  by_cases hneg : Binary64.negative word
  · simp only [if_neg fun h => hmask.mp h hneg, if_pos hneg]
  · simp only [if_pos (hmask.mpr hneg), if_neg hneg]

theorem negative_not {bits : UInt64} : Binary64.negative (~~~bits) ↔ ¬Binary64.negative bits := by
  have hlt := bits.toNat_lt
  rw [Binary64.negative, Binary64.negative, UInt64.toNat_not, UInt64.size]
  omega

/-- **What is encoded is decoded.** -/
theorem decodeDoubleKey_encodeDoubleKey (bits : UInt64) :
    decodeDoubleKey (encodeDoubleKey bits) = some bits := by
  by_cases hneg : Binary64.negative bits
  · rw [encodeDoubleKey, if_pos (Binary64.and_signBit_ne_zero_iff.mpr hneg),
      decodeDoubleKey_bigEndian, if_neg fun h => negative_not.mp h hneg, UInt64.not_not]
  · have hword := Binary64.toNat_or_signBit hneg
    have hset : Binary64.negative (bits ||| 0x8000000000000000) := by
      rw [Binary64.negative, hword]
      exact Nat.le_add_left _ _
    rw [encodeDoubleKey, if_neg fun h => hneg (Binary64.and_signBit_ne_zero_iff.mp h),
      decodeDoubleKey_bigEndian, if_pos hset, Option.some.injEq, ← UInt64.toNat_inj]
    rw [not_signBit_eq, Binary64.toNat_and_not_signBit, Binary64.field, hword]
    rw [Binary64.negative] at hneg
    omega

/-- Every eight bytes are the key of a double. -/
theorem exists_encodeDoubleKey {s : Bytes} (hs : s.length = 8) : ∃ bits, encodeDoubleKey bits = s := by
  have hword := Bytes.bigEndian_ofBigEndian hs
  generalize Bytes.ofBigEndian s = word at hword
  subst hword
  by_cases hneg : Binary64.negative word
  · refine ⟨word &&& 0x7FFFFFFFFFFFFFFF, ?_⟩
    have hfield := Binary64.toNat_and_not_signBit word
    have hlt := word.toNat_lt
    have hclear : ¬Binary64.negative (word &&& 0x7FFFFFFFFFFFFFFF) := by
      rw [Binary64.negative, hfield, Binary64.field]
      omega
    rw [encodeDoubleKey, if_neg fun h => hclear (Binary64.and_signBit_ne_zero_iff.mp h)]
    refine congrArg Bytes.bigEndian ?_
    rw [← UInt64.toNat_inj, Binary64.toNat_or_signBit hclear, hfield, Binary64.field]
    rw [Binary64.negative] at hneg
    omega
  · refine ⟨~~~word, ?_⟩
    rw [encodeDoubleKey, if_pos (Binary64.and_signBit_ne_zero_iff.mpr (negative_not.mpr hneg)),
      UInt64.not_not]

/-- The sign bit, flipped back. -/
theorem toInt_xor_signBit (word : UInt64) :
    (word ^^^ signBit).toInt64.toInt = (word.toNat : ℤ) - 2 ^ 63 := by
  have hlt := word.toNat_lt
  have hsign : signBit.toNat = 2 ^ 63 := by decide
  -- the bit is flipped, and those below it are not
  have hflip : (word ^^^ signBit).toNat % 2 ^ 63 = word.toNat % 2 ^ 63 ∧
      ((word ^^^ signBit).toNat / 2 ^ 63 = 1 ↔ word.toNat / 2 ^ 63 = 0) := by
    rw [UInt64.toNat_xor, hsign, Nat.xor_mod_two_pow, Nat.mod_self, Nat.xor_zero,
      Nat.xor_div_two_pow, Nat.div_self (Nat.two_pow_pos 63)]
    have hbit : word.toNat / 2 ^ 63 = 0 ∨ word.toNat / 2 ^ 63 = 1 := by omega
    rcases hbit with h | h <;> rw [h] <;> simp
  have hbmod : (word ^^^ signBit).toInt64.toInt = ((word ^^^ signBit).toNat : ℤ).bmod (2 ^ 64) :=
    BitVec.toInt_eq_toNat_bmod _
  have hlt' := (word ^^^ signBit).toNat_lt
  rw [hbmod, Int.bmod_def]
  generalize (word ^^^ signBit).toNat = flipped at hflip hlt' ⊢
  generalize word.toNat = n at hflip hlt ⊢
  omega

/-! ### Doubles -/

/-- **The keys of doubles are a bijection that keeps the order**: a pattern is read back from its
key, every eight bytes are one, and keys sort as the patterns do by sign and magnitude. That order
is the one of the values of finite doubles, with `-0.0` just before `0.0`. -/
theorem doubleKeys_ordered :
    (∀ x, (encodeDoubleKey x).length = 8 ∧ decodeDoubleKey (encodeDoubleKey x) = some x) ∧
    (∀ s : Bytes, s.length = 8 → ∃ x, encodeDoubleKey x = s) ∧
    (∀ x y, encodeDoubleKey x < encodeDoubleKey y ↔ Binary64.Precedes x y) ∧
    (∀ x y, Binary64.Finite x → Binary64.Finite y → (Binary64.Precedes x y ↔
      Binary64.scaled x < Binary64.scaled y ∨ x = Binary64.negativeZero ∧ y = 0)) ∧
    ∀ z, ¬(Binary64.Precedes Binary64.negativeZero z ∧ Binary64.Precedes z 0) := by
  refine ⟨fun x => ⟨?_, decodeDoubleKey_encodeDoubleKey x⟩, fun s => exists_encodeDoubleKey,
    fun x y => ?_, fun x y _ _ => Binary64.precedes_iff_scaled, Binary64.not_between_zeros⟩
  · obtain ⟨word, hkey, -⟩ := encodeDoubleKey_eq x
    rw [hkey, Bytes.length_bigEndian]
  · obtain ⟨word, hkey, hword⟩ := encodeDoubleKey_eq x
    obtain ⟨word', hkey', hword'⟩ := encodeDoubleKey_eq y
    rw [hkey, hkey', Bytes.bigEndian_lt_iff, UInt64.lt_iff_toNat_lt, Binary64.precedes_iff]
    omega

/-! ### Integers -/

/-- **The keys of two integers are in order**, and differ if the integers do, where sums wrap
around. -/
def IntKeysOrdered (i j : ℤ) : Prop :=
  ∃ key key', parseValue .standard (.integer i) = .ok key ∧ parseValue .standard (.integer j) = .ok key' ∧
    (i < j ↔ key < key') ∧ (i ≠ j → key ≠ key')

/-- The window an integer is in: number zero has the integers of thirty-two bits. -/
def window (i : ℤ) : ℤ := (i + 2 ^ 31) / 2 ^ 32

/-- An integer is its window and its place there. -/
theorem window_add_bmod (i : ℤ) : i = window i * 2 ^ 32 + i.bmod (2 ^ 32) := by
  rw [window, Int.bmod_def]
  omega

/-- **When the keys of integers are in order**: in one window they are, and between two windows if
the places of the integers in them are ordered as the windows. -/
theorem intKeysOrdered_iff (i j : ℤ) : IntKeysOrdered i j ↔ window i = window j ∨
    window i < window j ∧ i.bmod (2 ^ 32) < j.bmod (2 ^ 32) ∨
    window j < window i ∧ j.bmod (2 ^ 32) < i.bmod (2 ^ 32) := by
  obtain ⟨word, hkey, hword⟩ := @parseValue_number .standard (.integer i) rfl
  obtain ⟨word', hkey', hword'⟩ := @parseValue_number .standard (.integer j) rfl
  rw [rank_standard] at hword hword'
  have hlt : Bytes.bigEndian word < Bytes.bigEndian word' ↔
      i.bmod (2 ^ 32) < j.bmod (2 ^ 32) := by
    rw [Bytes.bigEndian_lt_iff, UInt64.lt_iff_toNat_lt]
    omega
  have heq : Bytes.bigEndian word = Bytes.bigEndian word' ↔
      i.bmod (2 ^ 32) = j.bmod (2 ^ 32) := by
    rw [← @Except.ok.injEq Exn, ← hkey, ← hkey', parseValue_eq_iff_rank rfl rfl, rank_standard,
      rank_standard]
  have hordered : IntKeysOrdered i j ↔ (i < j ↔ i.bmod (2 ^ 32) < j.bmod (2 ^ 32)) ∧
      (i ≠ j → i.bmod (2 ^ 32) ≠ j.bmod (2 ^ 32)) := by
    rw [← hlt, ne_eq (i.bmod _), ← heq]
    constructor
    · rintro ⟨key, key', h, h', hiff⟩
      obtain rfl := Except.ok.inj (hkey.symm.trans h)
      obtain rfl := Except.ok.inj (hkey'.symm.trans h')
      exact hiff
    · exact fun h => ⟨_, _, hkey, hkey', h⟩
  rw [hordered]
  -- what is left is arithmetic of windows and places
  have hi := window_add_bmod i
  have hj := window_add_bmod j
  have hilo := Int.le_bmod (x := i) (m := 2 ^ 32) (by decide)
  have hihi := Int.bmod_lt (x := i) (m := 2 ^ 32) (by decide)
  have hjlo := Int.le_bmod (x := j) (m := 2 ^ 32) (by decide)
  have hjhi := Int.bmod_lt (x := j) (m := 2 ^ 32) (by decide)
  generalize window i = a at hi ⊢
  generalize window j = b at hj ⊢
  generalize i.bmod (2 ^ 32) = p at hi hilo hihi ⊢
  generalize j.bmod (2 ^ 32) = q at hj hjlo hjhi ⊢
  omega

/-- **A great integer has the smaller key**: of `2 ^ 31` the last thirty-two bits are negative. -/
theorem not_intKeysOrdered_of_wrap : ¬IntKeysOrdered 0 (2 ^ 31) := by
  rintro ⟨key, key', hkey, hkey', hiff, -⟩
  obtain rfl := Except.ok.inj hkey
  obtain rfl := Except.ok.inj hkey'
  exact absurd (hiff.mp (by decide)) (by decide)

end AnuDB
