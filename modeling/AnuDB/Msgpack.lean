import AnuDB.Json
import Mathlib.Tactic.Ring

/-!
# MessagePack

What the store relies on is that a value it wrote is the value it reads back:
`AnuDB.Msgpack` is a pair of functions with that property, and everything that is proved
about documents is proved about every such pair. It is asked of all values, also of those
that no library has a form for; none is left out by that (`AnuDB.Msgpack.exists_agrees`).

`AnuDB.Msgpack.standard` is the pair the code is linked with, so that runs can be
carried out. It writes a control byte, the shortest length or number the format has, and
the elements; a double goes into four bytes if it survives the trip. Three values have
no form in the format – an integer beyond sixty-four bits, and a length of `2 ^ 32` or
more – and none of them fits in memory; they are written in unary after the one control
byte that is never used, which makes the round trip a fact about all values.
-/

namespace AnuDB

/-- **A serialisation that loses nothing.** -/
structure Msgpack where
  /-- `json::to_msgpack`. -/
  to_msgpack : Json → Bytes
  /-- `json::from_msgpack`: bytes that are not the encoding of a value throw. -/
  from_msgpack : Bytes → Except Exn Json
  /-- What was written is read back. -/
  from_to : ∀ j, from_msgpack (to_msgpack j) = .ok j

namespace Msgpack

/-! ### Numbers in bytes -/

/-- The number big-endian bytes stand for. -/
def ofDigits (s : Bytes) : ℕ := s.foldl (fun n b => n * 256 + b.toNat) 0

theorem foldl_digits (k n acc : ℕ) :
    (Bytes.digits k n).foldl (fun n b => n * 256 + b.toNat) acc = acc * 256 ^ k + n % 256 ^ k := by
  induction k generalizing acc with
  | zero => simp [Bytes.digits, Nat.mod_one]
  | succ k ih =>
    have hsplit : n % 256 ^ (k + 1) = n % 256 ^ k + 256 ^ k * (n / 256 ^ k % 256) := by
      rw [Nat.pow_succ, Nat.mod_mul]
    rw [Bytes.digits, List.foldl_cons, ih, UInt8.toNat_ofNat', hsplit, Nat.pow_succ]
    ring

/-- A number read from the first `k` bytes. -/
def readNat (k : ℕ) (s : Bytes) : Option (ℕ × Bytes) :=
  if k ≤ s.length then some (ofDigits (s.take k), s.drop k) else none

theorem readNat_digits {k n : ℕ} (h : n < 256 ^ k) (s : Bytes) :
    readNat k (Bytes.digits k n ++ s) = some (n, s) := by
  have hlen := Bytes.length_digits k n
  rw [readNat, if_pos (by rw [List.length_append]; omega)]
  rw [List.take_left' hlen, List.drop_left' hlen, ofDigits, foldl_digits, Nat.mod_eq_of_lt h,
    Nat.zero_mul, Nat.zero_add]

/-- A number in unary. -/
def unary (n : ℕ) : Bytes := List.replicate n 1 ++ [0]

/-- A number read in unary. -/
def readUnary : Bytes → Option (ℕ × Bytes)
  | [] => none
  | b :: s => if b = 0 then some (0, s) else (readUnary s).map fun (n, s) => (n + 1, s)

theorem readUnary_unary (n : ℕ) (s : Bytes) : readUnary (unary n ++ s) = some (n, s) := by
  induction n with
  | zero => rfl
  | succ n ih =>
    rw [unary, List.replicate_succ, List.cons_append, List.cons_append, readUnary, if_neg (by decide)]
    change Option.map _ (readUnary (unary n ++ s)) = _
    rw [ih]
    rfl

/-! ### Doubles in four bytes -/

/-- `static_cast<float>`, by truncation: exact where the value is a float's. -/
def narrow (bits : ℕ) : ℕ :=
  let sign := bits / 2 ^ 63 * 2 ^ 31
  let exponent := bits / 2 ^ 52 % 2 ^ 11
  let mantissa := bits % 2 ^ 52
  if 897 ≤ exponent ∧ exponent ≤ 1150 then
    (sign + (exponent - 896) * 2 ^ 23 + mantissa / 2 ^ 29) % 2 ^ 32
  else if 874 ≤ exponent ∧ exponent ≤ 896 then
    (sign + (2 ^ 52 + mantissa) / 2 ^ (926 - exponent)) % 2 ^ 32
  else sign % 2 ^ 32

/-- `static_cast<double>` of a float. -/
def widen (bits : ℕ) : ℕ :=
  let sign := bits / 2 ^ 31 * 2 ^ 63
  let exponent := bits / 2 ^ 23 % 2 ^ 8
  let mantissa := bits % 2 ^ 23
  if exponent = 0 then
    if mantissa = 0 then sign
    else
      let k := Nat.log2 mantissa
      sign + (874 + k) * 2 ^ 52 + (mantissa - 2 ^ k) * 2 ^ (52 - k)
  else if exponent = 255 then sign + 2047 * 2 ^ 52 + mantissa * 2 ^ 29
  else sign + (exponent + 896) * 2 ^ 52 + mantissa * 2 ^ 29

theorem narrow_lt (bits : ℕ) : narrow bits < 256 ^ 4 := by
  rw [narrow]
  split_ifs <;> exact Nat.mod_lt _ (by decide)

/-! ### Control bytes -/

/-- What a control byte announces, with the number or the length after it. -/
inductive Header where
  | null : Header
  | boolean (b : Bool) : Header
  | float (bits : UInt64) : Header
  /-- An integer that is not negative. -/
  | unsigned (n : ℕ) : Header
  /-- The integer `-1 - n`. -/
  | negative (n : ℕ) : Header
  | string (length : ℕ) : Header
  | array (length : ℕ) : Header
  | object (length : ℕ) : Header
  deriving DecidableEq

/-- The control byte no value has, and a kind. -/
def unused (kind : UInt8) (n : ℕ) : Bytes := [0xC1, kind] ++ unary n

/-- A control byte with the number or the length it announces. -/
def writeHeader : Header → Bytes
  | .null => [0xC0]
  | .boolean b => [if b then 0xC3 else 0xC2]
  | .float bits =>
    if widen (narrow bits.toNat) = bits.toNat then 0xCA :: Bytes.digits 4 (narrow bits.toNat)
    else 0xCB :: Bytes.digits 8 bits.toNat
  | .unsigned n =>
    if n < 128 then [UInt8.ofNat n]
    else if n < 256 ^ 1 then 0xCC :: Bytes.digits 1 n
    else if n < 256 ^ 2 then 0xCD :: Bytes.digits 2 n
    else if n < 256 ^ 4 then 0xCE :: Bytes.digits 4 n
    else if n < 256 ^ 8 then 0xCF :: Bytes.digits 8 n
    else unused 0 n
  | .negative n =>
    if n < 32 then [UInt8.ofNat (255 - n)]
    else if n < 2 ^ 7 then 0xD0 :: Bytes.digits 1 (256 ^ 1 - 1 - n)
    else if n < 2 ^ 15 then 0xD1 :: Bytes.digits 2 (256 ^ 2 - 1 - n)
    else if n < 2 ^ 31 then 0xD2 :: Bytes.digits 4 (256 ^ 4 - 1 - n)
    else if n < 2 ^ 63 then 0xD3 :: Bytes.digits 8 (256 ^ 8 - 1 - n)
    else unused 1 n
  | .string n =>
    if n ≤ 31 then [UInt8.ofNat (0xA0 + n)]
    else if n < 256 ^ 1 then 0xD9 :: Bytes.digits 1 n
    else if n < 256 ^ 2 then 0xDA :: Bytes.digits 2 n
    else if n < 256 ^ 4 then 0xDB :: Bytes.digits 4 n
    else unused 2 n
  | .array n =>
    if n ≤ 15 then [UInt8.ofNat (0x90 + n)]
    else if n < 256 ^ 2 then 0xDC :: Bytes.digits 2 n
    else if n < 256 ^ 4 then 0xDD :: Bytes.digits 4 n
    else unused 3 n
  | .object n =>
    if n ≤ 15 then [UInt8.ofNat (0x80 + n)]
    else if n < 256 ^ 2 then 0xDE :: Bytes.digits 2 n
    else if n < 256 ^ 4 then 0xDF :: Bytes.digits 4 n
    else unused 4 n

/-- A signed number of `k` bytes. -/
def signed (k n : ℕ) : Header :=
  if n < 256 ^ k / 2 then .unsigned n else .negative (256 ^ k - 1 - n)

/-- A number of `k` bytes, as what the control byte makes of it. -/
def readSized (k : ℕ) (f : ℕ → Header) (s : Bytes) : Option (Header × Bytes) :=
  (readNat k s).map fun (n, s) => (f n, s)

/-- The kinds of the unused control byte. -/
def unusedKind : UInt8 → Option (ℕ → Header)
  | 0 => some .unsigned
  | 1 => some .negative
  | 2 => some .string
  | 3 => some .array
  | 4 => some .object
  | _ => none

/-- A control byte read, with what it announces. -/
def readHeader : Bytes → Option (Header × Bytes)
  | [] => none
  | b :: s =>
    if b.toNat < 0x80 then some (.unsigned b.toNat, s)
    else if b.toNat < 0x90 then some (.object (b.toNat - 0x80), s)
    else if b.toNat < 0xA0 then some (.array (b.toNat - 0x90), s)
    else if b.toNat < 0xC0 then some (.string (b.toNat - 0xA0), s)
    else if 0xE0 ≤ b.toNat then some (.negative (255 - b.toNat), s)
    else match b with
      | 0xC0 => some (.null, s)
      | 0xC1 => match s with
        | [] => none
        | kind :: s => (unusedKind kind).bind fun f => (readUnary s).map fun (n, s) => (f n, s)
      | 0xC2 => some (.boolean false, s)
      | 0xC3 => some (.boolean true, s)
      | 0xCA => readSized 4 (fun n => .float (UInt64.ofNat (widen n))) s
      | 0xCB => readSized 8 (fun n => .float (UInt64.ofNat n)) s
      | 0xCC => readSized 1 .unsigned s
      | 0xCD => readSized 2 .unsigned s
      | 0xCE => readSized 4 .unsigned s
      | 0xCF => readSized 8 .unsigned s
      | 0xD0 => readSized 1 (signed 1) s
      | 0xD1 => readSized 2 (signed 2) s
      | 0xD2 => readSized 4 (signed 4) s
      | 0xD3 => readSized 8 (signed 8) s
      | 0xD9 => readSized 1 .string s
      | 0xDA => readSized 2 .string s
      | 0xDB => readSized 4 .string s
      | 0xDC => readSized 2 .array s
      | 0xDD => readSized 4 .array s
      | 0xDE => readSized 2 .object s
      | 0xDF => readSized 4 .object s
      -- binary and extension values are not among the values of a document
      | _ => none

theorem readSized_digits {k n : ℕ} (h : n < 256 ^ k) (f : ℕ → Header) (s : Bytes) :
    readSized k f (Bytes.digits k n ++ s) = some (f n, s) := by
  rw [readSized, readNat_digits h]
  rfl

theorem readHeader_unused {kind : UInt8} {f : ℕ → Header} (h : unusedKind kind = some f) (n : ℕ)
    (s : Bytes) : readHeader (unused kind n ++ s) = some (f n, s) := by
  change (unusedKind kind).bind (fun f => (readUnary (unary n ++ s)).map _) = _
  rw [h, readUnary_unary]
  rfl

/-- A control byte that holds a short number itself. -/
theorem toNat_short {b n : ℕ} (h : b + n < 256) : (UInt8.ofNat (b + n)).toNat = b + n := by
  rw [UInt8.toNat_ofNat', Nat.mod_eq_of_lt h]

theorem readSized_signed {k n : ℕ} (hk : 0 < k) (h : n < 256 ^ k / 2) (s : Bytes) :
    readSized k (signed k) (Bytes.digits k (256 ^ k - 1 - n) ++ s) = some (.negative n, s) := by
  have hpos : 2 ≤ 256 ^ k := by
    calc 2 ≤ 256 ^ 1 := by decide
      _ ≤ 256 ^ k := Nat.pow_le_pow_right (by decide) hk
  have heven : 256 ^ k / 2 * 2 = 256 ^ k := by
    obtain ⟨d, rfl⟩ : ∃ d, k = d + 1 := ⟨k - 1, by omega⟩
    rw [Nat.pow_succ]
    omega
  rw [readSized_digits (by omega), signed, if_neg (by omega)]
  congr 3
  omega

/-- **A control byte is read back** with what it announces. -/
theorem readHeader_writeHeader (h : Header) (s : Bytes) :
    readHeader (writeHeader h ++ s) = some (h, s) := by
  cases h with
  | null => rfl
  | boolean b => cases b <;> rfl
  | float bits =>
    have hbits : bits.toNat < 256 ^ 8 := bits.toNat_lt
    rw [writeHeader]
    split_ifs with hw
    · change readSized 4 (fun n => .float (UInt64.ofNat (widen n))) (Bytes.digits 4 _ ++ s) = _
      rw [readSized_digits (narrow_lt _), hw, UInt64.ofNat_toNat]
    · change readSized 8 (fun n => .float (UInt64.ofNat n)) (Bytes.digits 8 _ ++ s) = _
      rw [readSized_digits hbits, UInt64.ofNat_toNat]
  | unsigned n =>
    rw [writeHeader]
    split_ifs with h0 h1 h2 h4 h8
    · -- a short one is the header byte itself
      have hb := toNat_short (b := 0) (n := n) (by omega)
      rw [Nat.zero_add] at hb
      simp only [List.cons_append, List.nil_append, readHeader, hb]
      rw [if_pos h0]
    · exact readSized_digits h1 _ s
    · exact readSized_digits h2 _ s
    · exact readSized_digits h4 _ s
    · exact readSized_digits h8 _ s
    · exact readHeader_unused rfl n s
  | negative n =>
    rw [writeHeader]
    split_ifs with h0 h1 h2 h4 h8
    · have hb := toNat_short (b := 0) (n := 255 - n) (by omega)
      rw [Nat.zero_add] at hb
      simp only [List.cons_append, List.nil_append, readHeader, hb]
      rw [if_neg (by omega), if_neg (by omega), if_neg (by omega), if_neg (by omega),
        if_pos (by omega)]
      congr 3
      omega
    · exact readSized_signed (k := 1) (by decide) h1 s
    · exact readSized_signed (k := 2) (by decide) h2 s
    · exact readSized_signed (k := 4) (by decide) h4 s
    · exact readSized_signed (k := 8) (by decide) h8 s
    · exact readHeader_unused rfl n s
  | string n =>
    rw [writeHeader]
    split_ifs with h0 h1 h2 h4
    · have hb := toNat_short (b := 0xA0) (n := n) (by omega)
      simp only [List.cons_append, List.nil_append, readHeader, hb]
      rw [if_neg (by omega), if_neg (by omega), if_neg (by omega), if_pos (by omega),
        Nat.add_sub_cancel_left]
    · exact readSized_digits h1 _ s
    · exact readSized_digits h2 _ s
    · exact readSized_digits h4 _ s
    · exact readHeader_unused rfl n s
  | array n =>
    rw [writeHeader]
    split_ifs with h0 h2 h4
    · have hb := toNat_short (b := 0x90) (n := n) (by omega)
      simp only [List.cons_append, List.nil_append, readHeader, hb]
      rw [if_neg (by omega), if_neg (by omega), if_pos (by omega), Nat.add_sub_cancel_left]
    · exact readSized_digits h2 _ s
    · exact readSized_digits h4 _ s
    · exact readHeader_unused rfl n s
  | object n =>
    rw [writeHeader]
    split_ifs with h0 h2 h4
    · have hb := toNat_short (b := 0x80) (n := n) (by omega)
      simp only [List.cons_append, List.nil_append, readHeader, hb]
      rw [if_neg (by omega), if_pos (by omega), Nat.add_sub_cancel_left]
    · exact readSized_digits h2 _ s
    · exact readSized_digits h4 _ s
    · exact readHeader_unused rfl n s

/-! ### Values -/

mutual

/-- `json::to_msgpack`. -/
def write : Json → Bytes
  | .null => writeHeader .null
  | .boolean b => writeHeader (.boolean b)
  | .integer i =>
    if 0 ≤ i then writeHeader (.unsigned i.toNat) else writeHeader (.negative (-1 - i).toNat)
  | .float bits => writeHeader (.float bits)
  | .string s => writeHeader (.string s.length) ++ s
  | .array items => writeHeader (.array items.length) ++ writeItems items
  | .object members => writeHeader (.object members.length) ++ writeMembers members

/-- The elements of an array. -/
def writeItems : List Json → Bytes
  | [] => []
  | item :: items => write item ++ writeItems items

/-- The members of an object, each key before its value. -/
def writeMembers : List (Bytes × Json) → Bytes
  | [] => []
  | (key, value) :: members =>
    writeHeader (.string key.length) ++ key ++ write value ++ writeMembers members

end

/-- A number of things, read one after the other. -/
def readMany {α : Type} (read : Bytes → Option (α × Bytes)) : ℕ → Bytes → Option (List α × Bytes)
  | 0, s => some ([], s)
  | n + 1, s =>
    (read s).bind fun (a, s) => (readMany read n s).map fun (as, s) => (a :: as, s)

/-- A string whose length is known. -/
def readString (n : ℕ) (s : Bytes) : Option (Bytes × Bytes) :=
  if n ≤ s.length then some (s.take n, s.drop n) else none

/-- A member of an object: a string for a key, and its value. -/
def readMember (read : Bytes → Option (Json × Bytes)) (s : Bytes) :
    Option ((Bytes × Json) × Bytes) :=
  match readHeader s with
  | some (.string n, s) =>
    (readString n s).bind fun (key, s) => (read s).map fun (value, s) => ((key, value), s)
  | _ => none

/-- A value read, at most `fuel` levels deep. -/
def read : ℕ → Bytes → Option (Json × Bytes)
  | 0, _ => none
  | fuel + 1, s =>
    match readHeader s with
    | none => none
    | some (.null, s) => some (.null, s)
    | some (.boolean b, s) => some (.boolean b, s)
    | some (.float bits, s) => some (.float bits, s)
    | some (.unsigned n, s) => some (.integer n, s)
    | some (.negative n, s) => some (.integer (-1 - n), s)
    | some (.string n, s) => (readString n s).map fun (t, s) => (.string t, s)
    | some (.array n, s) => (readMany (read fuel) n s).map fun (items, s) => (.array items, s)
    | some (.object n, s) =>
      (readMany (readMember (read fuel)) n s).map fun (members, s) => (.object members, s)

theorem readString_append (s t : Bytes) : readString s.length (s ++ t) = some (s, t) := by
  rw [readString, if_pos (by rw [List.length_append]; omega), List.take_left, List.drop_left]

theorem length_writeHeader_pos (h : Header) : 0 < (writeHeader h).length := by
  cases h <;> rw [writeHeader] <;> try split_ifs
  all_goals simp [unused]

theorem length_write_pos (j : Json) : 0 < (write j).length := by
  cases j with
  | integer i =>
    rw [write]
    split_ifs <;> exact length_writeHeader_pos _
  | string | array | object =>
    rw [write, List.length_append]
    exact Nat.add_pos_left (length_writeHeader_pos _) _
  | _ =>
    rw [write]
    exact length_writeHeader_pos _

mutual

/-- A value is read back, given the fuel for its depth. -/
theorem read_write : ∀ (j : Json) (fuel : ℕ) (s : Bytes), (write j).length ≤ fuel →
    read fuel (write j ++ s) = some (j, s)
  | j, 0, _, hfuel => absurd (length_write_pos j) (by omega)
  | .null, fuel + 1, s, _ => by rw [write, read, readHeader_writeHeader]
  | .boolean b, fuel + 1, s, _ => by rw [write, read, readHeader_writeHeader]
  | .integer i, fuel + 1, s, _ => by
    rw [write]
    split_ifs with hi
    · rw [read, readHeader_writeHeader]
      simp only [Int.toNat_of_nonneg hi]
    · rw [read, readHeader_writeHeader]
      simp only [Int.toNat_of_nonneg (show 0 ≤ -1 - i by omega)]
      congr 3
      omega
  | .float bits, fuel + 1, s, _ => by rw [write, read, readHeader_writeHeader]
  | .string t, fuel + 1, s, _ => by
    rw [write, List.append_assoc, read, readHeader_writeHeader]
    simp only [readString_append, Option.map_some]
  | .array items, fuel + 1, s, hfuel => by
    rw [write, List.length_append] at hfuel
    have hpos := length_writeHeader_pos (.array items.length)
    have hitems := readMany_writeItems items fuel s (by omega)
    rw [write, List.append_assoc, read, readHeader_writeHeader]
    simp only [hitems, Option.map_some]
  | .object members, fuel + 1, s, hfuel => by
    rw [write, List.length_append] at hfuel
    have hpos := length_writeHeader_pos (.object members.length)
    have hmembers := readMany_writeMembers members fuel s (by omega)
    rw [write, List.append_assoc, read, readHeader_writeHeader]
    simp only [hmembers, Option.map_some]

theorem readMany_writeItems : ∀ (items : List Json) (fuel : ℕ) (s : Bytes),
    (writeItems items).length ≤ fuel →
    readMany (read fuel) items.length (writeItems items ++ s) = some (items, s)
  | [], _, _, _ => rfl
  | item :: items, fuel, s, hfuel => by
    rw [writeItems, List.length_append] at hfuel
    have hitem := read_write item fuel (writeItems items ++ s) (by omega)
    have hitems := readMany_writeItems items fuel s (by omega)
    rw [writeItems, List.append_assoc, List.length_cons, readMany, hitem]
    simp only [Option.bind_some, hitems, Option.map_some]

theorem readMany_writeMembers : ∀ (members : List (Bytes × Json)) (fuel : ℕ) (s : Bytes),
    (writeMembers members).length ≤ fuel →
    readMany (readMember (read fuel)) members.length (writeMembers members ++ s) =
      some (members, s)
  | [], _, _, _ => rfl
  | (key, value) :: members, fuel, s, hfuel => by
    simp only [writeMembers, List.length_append] at hfuel
    have hvalue := read_write value fuel (writeMembers members ++ s) (by omega)
    have hmembers := readMany_writeMembers members fuel s (by omega)
    simp only [writeMembers, List.append_assoc, List.length_cons, readMany, readMember,
      readHeader_writeHeader, readString_append, hvalue, hmembers, Option.bind_some,
      Option.map_some]

end

/-! ### The serialisation -/

/-- `json::from_msgpack`, which wants all of its input to be one value; the texts of its
parse errors are not told apart. -/
def parse (s : Bytes) : Except Exn Json :=
  match read s.length s with
  | some (j, []) => .ok j
  | _ => .error (.exception (Bytes.ofText "[json.exception.parse_error.110] parse error"))

/-- **The serialisation the code is linked with.** -/
def standard : Msgpack where
  to_msgpack := write
  from_msgpack := parse
  from_to j := by
    have h := read_write j (write j).length [] le_rfl
    rw [List.append_nil] at h
    rw [parse, h]

end Msgpack

end AnuDB
