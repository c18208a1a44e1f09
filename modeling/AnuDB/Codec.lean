import AnuDB.Msgpack
import Mathlib.Data.Int.Order.Basic

/-!
# What a build brings along

Two things the program computes are not settled by its source. One is the serialisation it is
linked with. The other is the sum in `encodeIntKey`: `value + INT64_MAX + 1` is added up as signed
numbers of sixty-four bits, and unless the value is negative it goes over the top
(`AnuDB.fitsInt64_signedSums_iff`). What an addition that overflows comes to is left to the
compiler. Where it is the addition of the machine the sum wraps around, to the word that is meant; a
compiler that takes it that no sum overflows may have the upper half of the word `7fffffff` always,
as it is for negative values, and the lower half as it comes.

`AnuDB.Codec` is a build: a serialisation and a word for every sum, the right one where nothing
overflows. What is proved about the keys of values is proved for every build.
`AnuDB.Codec.standard` is the one runs are carried out with; its sums wrap around.
-/

namespace AnuDB

/-- A number that an integer of sixty-four bits can have. -/
def FitsInt64 (x : ℤ) : Prop := Int64.minValue.toInt ≤ x ∧ x ≤ Int64.maxValue.toInt

/-- The results of the signed additions of `value + INT64_MAX + 1`, from the left: the `int` and
the one are promoted to the type of `INT64_MAX`, and it is the sum that is converted. -/
def signedSums (value : Int32) : List ℤ :=
  [value.toInt + Int64.maxValue.toInt, value.toInt + Int64.maxValue.toInt + 1]

/-- **Nothing overflows** exactly if the value is negative. -/
theorem fitsInt64_signedSums_iff {value : Int32} :
    (∀ x ∈ signedSums value, FitsInt64 x) ↔ value.toInt < 0 := by
  have hmax : Int64.maxValue.toInt = 2 ^ 63 - 1 := by decide
  have hmin : Int64.minValue.toInt = -2 ^ 63 := by decide
  have hlo := value.le_toInt
  constructor
  · intro hfits
    have hsecond := hfits _ (List.mem_cons_of_mem _ List.mem_cons_self)
    rw [FitsInt64, hmax] at hsecond
    omega
  · intro hneg x hx
    rw [signedSums, hmax, List.mem_pair] at hx
    rw [FitsInt64, hmin, hmax]
    omega

/-- **A build of the program**, as far as values are concerned. -/
structure Codec extends Msgpack where
  /-- What `value + INT64_MAX + 1` comes to, as the unsigned word it is converted to. -/
  shifted : Int32 → UInt64
  /-- Where no addition overflows, it is the sum. -/
  shifted_of_fits : ∀ value, (∀ x ∈ signedSums value, FitsInt64 x) →
    ((shifted value).toNat : ℤ) = value.toInt + Int64.maxValue.toInt + 1

namespace Codec

/-- The word of a negative value is the value, moved up. -/
theorem toNat_shifted_of_neg (codec : Codec) {value : Int32} (h : value.toInt < 0) :
    ((codec.shifted value).toNat : ℤ) = value.toInt + 2 ^ 63 := by
  have hmax : Int64.maxValue.toInt = 2 ^ 63 - 1 := by decide
  have hsum := codec.shifted_of_fits value (fitsInt64_signedSums_iff.mpr h)
  rw [hmax] at hsum
  omega

/-! ### Builds -/

/-- The sum as the machine adds it up. -/
def wrapped (value : Int32) : UInt64 := (value.toInt64 + Int64.maxValue + 1).toUInt64

theorem toNat_wrapped (value : Int32) : ((wrapped value).toNat : ℤ) = value.toInt + 2 ^ 63 := by
  have hlo := value.le_toInt
  have hhi := value.toInt_lt
  have hmax : Int64.maxValue.toInt = 2 ^ 63 - 1 := by decide
  have hone : (1 : Int64).toInt = 1 := by decide
  have hadd := Int64.toInt_add value.toInt64 Int64.maxValue
  have hsum := Int64.toInt_add (value.toInt64 + Int64.maxValue) 1
  rw [Int32.toInt_toInt64, hmax] at hadd
  rw [hadd, hone] at hsum
  rw [wrapped]
  generalize value.toInt64 + Int64.maxValue + 1 = x at hsum ⊢
  have hx : x.toInt = (x.toUInt64.toNat : ℤ).bmod (2 ^ 64) := BitVec.toInt_eq_toNat_bmod _
  have hlt := x.toUInt64.toNat_lt
  rw [hx] at hsum
  simp only [Int.bmod_def] at hsum
  omega

/-- **The build in which sums wrap around.** -/
def standard : Codec where
  toMsgpack := .standard
  shifted := wrapped
  shifted_of_fits value _ := by
    have hmax : Int64.maxValue.toInt = 2 ^ 63 - 1 := by decide
    rw [toNat_wrapped, hmax]
    omega

instance : Inhabited Codec := ⟨.standard⟩

/-- A build with words of its own for the sums that overflow. -/
def overflowing (overflow : Int32 → UInt64) : Codec where
  toMsgpack := .standard
  shifted value := if value.toInt < 0 then wrapped value else overflow value
  shifted_of_fits value hfits := by
    have hmax : Int64.maxValue.toInt = 2 ^ 63 - 1 := by decide
    rw [if_pos (fitsInt64_signedSums_iff.mp hfits), toNat_wrapped, hmax]
    omega

theorem shifted_overflowing {overflow : Int32 → UInt64} {value : Int32} (h : 0 ≤ value.toInt) :
    (overflowing overflow).shifted value = overflow value := if_neg (not_lt.mpr h)

end Codec

end AnuDB
