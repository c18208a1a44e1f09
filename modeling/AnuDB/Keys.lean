import AnuDB.Codec
import AnuDB.Lib.Binary64
import Mathlib.Data.Int.Order.Basic

/-!
# Index keys

The key of a value in an index. A string is its own key, an integer is cut down to
thirty-two bits and then shifted to an unsigned big-endian word, a double is turned into
a word that sorts like it, and the other scalars have fixed texts. An entry's key is the
value's key, `#`, and the id of the document; nothing marks where the type of the value
went, and nothing keeps a `#` in a string or in an id apart from the separator.

Numbers have keys of eight bytes, in the order of `AnuDB.rank` (`AnuDB.parseValue_lt_iff`): for
a double the sign-magnitude rank, and for an integer what the shifted word says. That is the value
itself, wrapped to thirty-two bits, if that is negative (`AnuDB.rank_of_neg`), and in the build
whose sums wrap around (`AnuDB.rank_standard`); where the sum overflows, it is up to the build.
-/

namespace AnuDB

/-- `Collection::encodeIntKey`: `value + INT64_MAX + 1` as the build computes it, most
significant byte first. -/
def encodeIntKey (codec : Codec) (value : Int32) : Bytes :=
  let shifted : UInt64 := codec.shifted value
  Bytes.bigEndian shifted

/-- `Collection::encodeDoubleKey`: the pattern complemented if it is negative, and with
the sign bit set if it is not. -/
def encodeDoubleKey (bits : UInt64) : Bytes :=
  if bits &&& 0x8000000000000000 ≠ 0 then Bytes.bigEndian (~~~bits)
  else Bytes.bigEndian (bits ||| 0x8000000000000000)

/-- `Collection::parseValue`: the key of a value. An object or an array is returned as
`json` where a string is expected, and that conversion throws. -/
def parseValue (codec : Codec) (value : Json) : Except Exn Bytes :=
  match value with
  | .string s => .ok s
  | .integer i => .ok (encodeIntKey codec (Int32.ofInt i))
  | .float bits => .ok (encodeDoubleKey bits)
  | .boolean b => .ok (Bytes.ofText (if b then "true" else "false"))
  | .null => .ok []
  | .object _ => .error value.notAString
  | .array _ => .error value.notAString

/-- What separates a value's key from the id in an index key. -/
def separator : Bytes := Bytes.ofText "#"

/-- The key of a document's entry in the index of one of its fields. -/
def indexKey (codec : Codec) (value : Json) (id : Bytes) : Except Exn Bytes := do
  let key ← parseValue codec value
  return key ++ separator ++ id

/-! ### The keys of numbers -/

/-- Whether a value is a number. -/
def Json.isNumber : Json → Bool
  | .integer _ => true
  | .float _ => true
  | _ => false

/-- **The order of the keys of numbers.** Values that are not numbers have none. -/
def rank (codec : Codec) : Json → ℤ
  | .integer i => (codec.shifted (Int32.ofInt i)).toNat - 2 ^ 63
  | .float bits => Binary64.signMagnitude bits
  | _ => 0

/-- An integer that is negative in thirty-two bits has them for its rank, in every build. -/
theorem rank_of_neg (codec : Codec) {i : ℤ} (h : i.bmod (2 ^ 32) < 0) :
    rank codec (.integer i) = i.bmod (2 ^ 32) := by
  have hvalue : (Int32.ofInt i).toInt = i.bmod (2 ^ 32) := Int32.toInt_ofInt
  rw [rank, codec.toNat_shifted_of_neg (hvalue ▸ h), hvalue]
  omega

/-- Where sums wrap around, every integer has its last thirty-two bits for its rank. -/
theorem rank_standard (i : ℤ) : rank .standard (.integer i) = i.bmod (2 ^ 32) := by
  have hword : ((Codec.standard.shifted (Int32.ofInt i)).toNat : ℤ) =
      (Int32.ofInt i).toInt + 2 ^ 63 := Codec.toNat_wrapped _
  have hvalue : (Int32.ofInt i).toInt = i.bmod (2 ^ 32) := Int32.toInt_ofInt
  rw [rank, hword, hvalue]
  omega

/-- Where the sum overflows, there is a build with any word for it. -/
theorem rank_overflowing {i : ℤ} (h : 0 ≤ i.bmod (2 ^ 32)) (overflow : Int32 → UInt64) :
    rank (.overflowing overflow) (.integer i) = (overflow (Int32.ofInt i)).toNat - 2 ^ 63 := by
  have hvalue : (Int32.ofInt i).toInt = i.bmod (2 ^ 32) := Int32.toInt_ofInt
  rw [rank, Codec.shifted_overflowing (hvalue ▸ h)]

/-- **Two integers have one rank in some build** if one of the sums overflows. -/
theorem exists_rank_eq {i j : ℤ} (h : 0 ≤ i.bmod (2 ^ 32) ∨ 0 ≤ j.bmod (2 ^ 32)) :
    ∃ codec, rank codec (.integer i) = rank codec (.integer j) := by
  have hone {i j : ℤ} (hi : 0 ≤ i.bmod (2 ^ 32)) :
      ∃ codec, rank codec (.integer i) = rank codec (.integer j) := by
    -- every sum that overflows comes to the word that the other one wraps around to
    refine ⟨.overflowing fun _ => Codec.wrapped (Int32.ofInt j), ?_⟩
    rw [rank_overflowing hi]
    rcases lt_or_ge (j.bmod (2 ^ 32)) 0 with hj | hj
    · rw [rank_of_neg _ hj, ← rank_standard]
      rfl
    · rw [rank_overflowing hj]
  rcases h with hi | hj
  · exact hone hi
  · obtain ⟨codec, hrank⟩ := hone (j := i) hj
    exact ⟨codec, hrank.symm⟩

/-- The word a double's key is the bytes of. -/
theorem encodeDoubleKey_eq (bits : UInt64) : ∃ word : UInt64,
    encodeDoubleKey bits = Bytes.bigEndian word ∧
      (word.toNat : ℤ) = Binary64.signMagnitude bits + 2 ^ 63 := by
  have hlt := bits.toNat_lt
  have hmask := @Binary64.and_signBit_ne_zero_iff bits
  by_cases hneg : Binary64.negative bits
  · refine ⟨~~~bits, by rw [encodeDoubleKey, if_pos (hmask.mpr hneg)], ?_⟩
    rw [UInt64.toNat_not, Binary64.signMagnitude, if_pos hneg, Binary64.field, UInt64.size]
    rw [Binary64.negative] at hneg
    omega
  · refine ⟨bits ||| 0x8000000000000000, ?_, ?_⟩
    · rw [encodeDoubleKey, if_neg fun h => hneg (hmask.mp h)]
    · rw [Binary64.toNat_or_signBit hneg, Binary64.signMagnitude, if_neg hneg, Binary64.field]
      rw [Binary64.negative] at hneg
      omega

/-- **A number's key is the eight bytes of its rank**, moved up to be unsigned. -/
theorem parseValue_number {codec : Codec} {v : Json} (hv : v.isNumber = true) : ∃ word : UInt64,
    parseValue codec v = .ok (Bytes.bigEndian word) ∧
      (word.toNat : ℤ) = rank codec v + 2 ^ 63 := by
  cases v with
  | integer i => exact ⟨codec.shifted (Int32.ofInt i), rfl, by rw [rank]; omega⟩
  | float bits =>
    obtain ⟨word, hkey, hword⟩ := encodeDoubleKey_eq bits
    exact ⟨word, by rw [parseValue, hkey], hword⟩
  | _ => simp [Json.isNumber] at hv

end AnuDB
