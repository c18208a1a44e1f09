import AnuDB.Range

/-!
# Do keys tell values apart?

The key of a value should be that of another value exactly if the two are equal, numbers by what
they are worth. Two strings have it so, and two booleans; two integers unless they differ and have
one word, and two doubles unless they are the two zeros. Across the kinds nothing keeps the keys
apart: a string can spell the key of any other value, and an integer and a double may have the same
key or not, whatever they are worth (`AnuDB.parseValue_eq_iff`).

What the word of an integer is depends on the build, unless the integer is negative in thirty-two
bits. So there is a second condition, that two values are told apart in every build
(`AnuDB.SurelyTell`): it looks at the values alone.
-/

namespace AnuDB

/-- Whether a value is a scalar, and finite if it is a double. -/
def Json.isScalar : Json → Bool
  | .float bits => decide (Binary64.Finite bits)
  | .object _ => false
  | .array _ => false
  | _ => true

/-- **Equality of scalars**: numbers are equal if they are worth the same, however they are
represented, and others if they are of one kind and the same. -/
def SameValue : Json → Json → Prop
  | .string s, .string t => s = t
  | .boolean a, .boolean b => a = b
  | .null, .null => True
  | v, w => v.isNumber = true ∧ w.isNumber = true ∧ v.scaled = w.scaled

/-- **The text that a scalar which is no string has for a key**: a number the eight digits to
base 256 of a word. -/
def Json.spelling (codec : Codec) : Json → Bytes
  | .boolean b => Bytes.ofText (if b then "true" else "false")
  | .integer i => Bytes.digits 8 (codec.shifted (Int32.ofInt i)).toNat
  | .float bits => Bytes.digits 8 (Binary64.signMagnitude bits + 2 ^ 63).toNat
  | _ => []

/-- An integer and a double: they have one rank exactly if they are worth the same. -/
def MixedApart (codec : Codec) (i : ℤ) (bits : UInt64) : Prop :=
  rank codec (.integer i) = Binary64.signMagnitude bits ↔
    Binary64.scaledInt i = Binary64.scaled bits

/-- **When keys tell two scalars apart** in a build, and do not tell apart what is equal. -/
def KeysTell (codec : Codec) : Json → Json → Prop
  | .string _, .string _ => True
  | .string s, w => s ≠ w.spelling codec
  | v, .string t => t ≠ v.spelling codec
  | .integer i, .integer j => rank codec (.integer i) = rank codec (.integer j) → i = j
  | .float a, .float b => ¬Binary64.Zeros a b
  | .integer i, .float b => MixedApart codec i b
  | .float a, .integer j => MixedApart codec j a
  | _, _ => True

/-- **A text may be the key** of a scalar that is no string: an integer whose sum overflows may
have any eight bytes. -/
def MaySpell (s : Bytes) : Json → Prop
  | .integer i =>
    if i.bmod (2 ^ 32) < 0 then s = Bytes.digits 8 (i.bmod (2 ^ 32) + 2 ^ 63).toNat
    else s.length = 8
  | w => s = w.spelling .standard

/-- An integer and a double that are worth different things and have different ranks in every
build. -/
def SurelyApart (i : ℤ) (bits : UInt64) : Prop :=
  i.bmod (2 ^ 32) < 0 ∧ Binary64.scaledInt i ≠ Binary64.scaled bits ∧
    i.bmod (2 ^ 32) ≠ Binary64.signMagnitude bits

/-- **When keys tell two scalars apart in every build.** -/
def SurelyTell : Json → Json → Prop
  | .string _, .string _ => True
  | .string s, w => ¬MaySpell s w
  | v, .string t => ¬MaySpell t v
  | .integer i, .integer j => i = j ∨
    i.bmod (2 ^ 32) < 0 ∧ j.bmod (2 ^ 32) < 0 ∧ i.bmod (2 ^ 32) ≠ j.bmod (2 ^ 32)
  | .float a, .float b => ¬Binary64.Zeros a b
  | .integer i, .float b => SurelyApart i b
  | .float a, .integer j => SurelyApart j a
  | _, _ => True

/-! ### Numbers -/

variable {codec : Codec} {v w : Json}

/-- The key of a number, digit by digit. -/
theorem parseValue_eq_spelling (hv : v.isNumber = true) :
    parseValue codec v = .ok (v.spelling codec) := by
  cases v with
  | integer i => rw [parseValue, encodeIntKey, Bytes.bigEndian_eq_digits, Json.spelling]
  | float bits =>
    obtain ⟨word, hkey, hword⟩ := encodeDoubleKey_eq bits
    rw [parseValue, hkey, Bytes.bigEndian_eq_digits, Json.spelling, ← hword, Int.toNat_natCast]
  | _ => cases hv

/-- Numbers have the same key if they have the same rank. -/
theorem parseValue_eq_iff_rank (hv : v.isNumber = true) (hw : w.isNumber = true) :
    parseValue codec v = parseValue codec w ↔ rank codec v = rank codec w := by
  obtain ⟨word, hkey, hword⟩ := @parseValue_number codec _ hv
  obtain ⟨word', hkey', hword'⟩ := @parseValue_number codec _ hw
  rw [hkey, hkey', Except.ok.injEq]
  refine ⟨fun h => ?_, fun h => congrArg Bytes.bigEndian ?_⟩
  · obtain rfl := Bytes.bigEndian_injective h
    omega
  · rw [← UInt64.toNat_inj]
    omega

theorem scaledInt_inj {i j : ℤ} : Binary64.scaledInt i = Binary64.scaledInt j ↔ i = j := by
  rw [← cmp_eq_eq_iff, cmp_scaledInt, cmp_eq_eq_iff]

/-- Numbers are equal if they are worth the same. -/
theorem sameValue_iff_scaled (hv : v.isNumber = true) (hw : w.isNumber = true) :
    SameValue v w ↔ v.scaled = w.scaled := by
  have hiff (h : SameValue v w ↔ v.isNumber = true ∧ w.isNumber = true ∧ v.scaled = w.scaled) :
      SameValue v w ↔ v.scaled = w.scaled := by
    rw [h, and_iff_right hv, and_iff_right hw]
  cases v with
  | integer i => exact hiff Iff.rfl
  | float bits => exact hiff Iff.rfl
  | _ => cases hv

theorem keysTell_of_numbers (hv : v.isNumber = true) (hw : w.isNumber = true) :
    (parseValue codec v = parseValue codec w ↔ SameValue v w) ↔ KeysTell codec v w := by
  rw [parseValue_eq_iff_rank hv hw, sameValue_iff_scaled hv hw]
  cases v with
  | integer i =>
    cases w with
    | integer j =>
      rw [Json.scaled, Json.scaled, scaledInt_inj]
      exact ⟨fun h => h.mp, fun h => ⟨h, fun hij => by rw [hij]⟩⟩
    | float bits => exact Iff.rfl
    | _ => cases hw
  | float bits =>
    cases w with
    | integer j => exact iff_congr eq_comm eq_comm
    | float bits' => exact Binary64.signMagnitude_eq_iff
    | _ => cases hw
  | _ => cases hv

/-! ### All scalars -/

/-- A scalar that is no string. -/
def Json.isPlain : Json → Bool
  | .boolean _ => true
  | .null => true
  | v => v.isNumber

theorem parseValue_of_isPlain (hv : v.isPlain = true) : parseValue codec v = .ok (v.spelling codec) := by
  cases v with
  | boolean b => rfl
  | null => rfl
  | integer i => exact parseValue_eq_spelling rfl
  | float bits => exact parseValue_eq_spelling rfl
  | _ => cases hv

/-- What is no number is spelled alike in every build. -/
theorem spelling_eq_standard (hv : v.isNumber = false) : v.spelling codec = v.spelling .standard := by
  cases v with
  | integer i => cases hv
  | _ => rfl

/-- Numbers are told from other plain scalars by the length of what they spell. -/
theorem isNumber_iff_length (hv : v.isPlain = true) :
    v.isNumber = true ↔ (v.spelling codec).length = 8 := by
  cases v with
  | boolean b =>
    rw [spelling_eq_standard rfl]
    cases b <;> decide
  | null =>
    rw [spelling_eq_standard rfl]
    decide
  | integer i => exact iff_of_true rfl (Bytes.length_digits 8 _)
  | float bits => exact iff_of_true rfl (Bytes.length_digits 8 _)
  | _ => cases hv

/-- Equal scalars are the same, or they are numbers. -/
theorem SameValue.eq_or (h : SameValue v w) : v = w ∨ v.isNumber = true ∧ w.isNumber = true := by
  unfold SameValue at h
  split at h
  · exact Or.inl (congrArg Json.string h)
  · exact Or.inl (congrArg Json.boolean h)
  · exact Or.inl rfl
  · exact Or.inr ⟨h.1, h.2.1⟩

/-- Booleans and null have keys of their own. -/
theorem sameValue_of_spelling_eq (hv : v.isPlain = true) (hw : w.isPlain = true)
    (hv' : v.isNumber = false) (hw' : w.isNumber = false) (h : v.spelling codec = w.spelling codec) :
    SameValue v w := by
  rw [spelling_eq_standard hv', spelling_eq_standard hw'] at h
  cases v with
  | boolean a =>
    cases w with
    | boolean b =>
      cases a <;> cases b <;> first | rfl | exact absurd h (by decide)
    | null => cases a <;> exact absurd h (by decide)
    | integer j => cases hw'
    | float bits => cases hw'
    | _ => cases hw
  | null =>
    cases w with
    | boolean b => cases b <;> exact absurd h (by decide)
    | null => trivial
    | integer j => cases hw'
    | float bits => cases hw'
    | _ => cases hw
  | integer i => cases hv'
  | float bits => cases hv'
  | _ => cases hv

/-- Plain scalars, not both numbers, have the same key exactly if they are the same. -/
theorem keysTell_of_isPlain (hv : v.isPlain = true) (hw : w.isPlain = true)
    (hnumbers : ¬(v.isNumber = true ∧ w.isNumber = true)) :
    (parseValue codec v = parseValue codec w ↔ SameValue v w) ∧ KeysTell codec v w := by
  refine ⟨?_, ?_⟩
  · rw [parseValue_of_isPlain hv, parseValue_of_isPlain hw, Except.ok.injEq]
    refine ⟨fun h => ?_, fun h => congrArg (Json.spelling codec) (h.eq_or.resolve_right hnumbers)⟩
    have hboth : v.isNumber = true ↔ w.isNumber = true := by
      rw [isNumber_iff_length hv, isNumber_iff_length hw, h]
    have hv' : ¬v.isNumber = true := fun hnumber => hnumbers ⟨hnumber, hboth.mp hnumber⟩
    have hw' : ¬w.isNumber = true := fun hnumber => hv' (hboth.mpr hnumber)
    exact sameValue_of_spelling_eq hv hw (Bool.eq_false_of_not_eq_true hv')
      (Bool.eq_false_of_not_eq_true hw') h
  · unfold KeysTell
    split
    · trivial
    · cases hv
    · cases hw
    all_goals first | trivial | exact absurd ⟨rfl, rfl⟩ hnumbers

/-- A string may spell the key of another scalar. -/
theorem keysTell_of_string {s : Bytes} (hw : w.isPlain = true) :
    (parseValue codec (.string s) = parseValue codec w ↔ SameValue (.string s) w) ↔
      s ≠ w.spelling codec := by
  have hsame : ¬SameValue (.string s) w := by
    intro h
    rcases h.eq_or with rfl | h
    · cases hw
    · cases h.1
  rw [parseValue_of_isPlain hw, parseValue, Except.ok.injEq, iff_false_right hsame]

theorem SameValue.symm (h : SameValue v w) : SameValue w v := by
  rcases h.eq_or with rfl | ⟨hv, hw⟩
  · exact h
  · rw [sameValue_iff_scaled hw hv]
    exact ((sameValue_iff_scaled hv hw).mp h).symm

/-- A scalar that is no string is a plain one. -/
theorem isPlain_of_isScalar (hv : v.isScalar = true) (hstring : ∀ s, v ≠ .string s) :
    v.isPlain = true := by
  cases v with
  | string s => exact absurd rfl (hstring s)
  | object members => cases hv
  | array items => cases hv
  | _ => rfl

/-- **In a build**, keys identify the equal values of two scalars when they tell them apart. -/
theorem keysTell_iff (hv : v.isScalar = true) (hw : w.isScalar = true) :
    (parseValue codec v = parseValue codec w ↔ SameValue v w) ↔ KeysTell codec v w := by
  by_cases hvs : ∃ s, v = .string s
  · obtain ⟨s, rfl⟩ := hvs
    by_cases hws : ∃ t, w = .string t
    · obtain ⟨t, rfl⟩ := hws
      refine iff_of_true ?_ trivial
      rw [parseValue, parseValue, Except.ok.injEq]
      exact Iff.rfl
    · have hw' := isPlain_of_isScalar hw fun t ht => hws ⟨t, ht⟩
      refine (keysTell_of_string hw').trans ?_
      cases w with
      | string t => exact absurd ⟨t, rfl⟩ hws
      | _ => exact Iff.rfl
  · have hv' := isPlain_of_isScalar hv fun s hs => hvs ⟨s, hs⟩
    by_cases hws : ∃ t, w = .string t
    · obtain ⟨t, rfl⟩ := hws
      rw [eq_comm, iff_congr Iff.rfl ⟨SameValue.symm, SameValue.symm⟩]
      refine (keysTell_of_string hv').trans ?_
      cases v with
      | string s => exact absurd ⟨s, rfl⟩ hvs
      | _ => exact Iff.rfl
    · have hw' := isPlain_of_isScalar hw fun t ht => hws ⟨t, ht⟩
      by_cases hnumbers : v.isNumber = true ∧ w.isNumber = true
      · exact keysTell_of_numbers hnumbers.1 hnumbers.2
      · obtain ⟨hiff, htell⟩ := keysTell_of_isPlain hv' hw' hnumbers
        exact iff_of_true hiff htell

/-! ### Every build -/

/-- **A text may be the key** exactly if it is in some build. -/
theorem forall_ne_spelling_iff {s : Bytes} (hw : w.isPlain = true) :
    (∀ codec, s ≠ w.spelling codec) ↔ ¬MaySpell s w := by
  cases w with
  | integer i =>
    have hvalue : (Int32.ofInt i).toInt = i.bmod (2 ^ 32) := Int32.toInt_ofInt
    rw [MaySpell]
    split_ifs with hneg
    · have hspelling (codec : Codec) : (Json.integer i).spelling codec =
          Bytes.digits 8 (i.bmod (2 ^ 32) + 2 ^ 63).toNat := by
        have hword := codec.toNat_shifted_of_neg (hvalue.trans_lt hneg)
        rw [hvalue] at hword
        rw [Json.spelling, ← hword, Int.toNat_natCast]
      simp only [hspelling]
      exact forall_const Codec
    · constructor
      · intro hne hlength
        -- the build that has these bytes for every sum that overflows
        refine hne (.overflowing fun _ => Bytes.ofBigEndian s) ?_
        rw [Json.spelling, Codec.shifted_overflowing (hvalue ▸ not_lt.mp hneg),
          ← Bytes.bigEndian_eq_digits, Bytes.bigEndian_ofBigEndian hlength]
      · rintro hlength codec rfl
        exact hlength (Bytes.length_digits 8 _)
  | boolean b => exact @forall_const (s ≠ (Json.boolean b).spelling .standard) Codec _
  | null => exact @forall_const (s ≠ Json.null.spelling .standard) Codec _
  | float bits => exact @forall_const (s ≠ (Json.float bits).spelling .standard) Codec _
  | _ => cases hw

/-- Two integers are told apart in every build. -/
theorem forall_rank_eq_imp_iff {i j : ℤ} :
    (∀ codec, rank codec (.integer i) = rank codec (.integer j) → i = j) ↔ i = j ∨
      i.bmod (2 ^ 32) < 0 ∧ j.bmod (2 ^ 32) < 0 ∧ i.bmod (2 ^ 32) ≠ j.bmod (2 ^ 32) := by
  constructor
  · intro h
    by_cases hneg : i.bmod (2 ^ 32) < 0 ∧ j.bmod (2 ^ 32) < 0
    · by_cases heq : i.bmod (2 ^ 32) = j.bmod (2 ^ 32)
      · refine Or.inl (h .standard ?_)
        rw [rank_standard, rank_standard, heq]
      · exact Or.inr ⟨hneg.1, hneg.2, heq⟩
    · rw [not_and_or, not_lt, not_lt] at hneg
      obtain ⟨codec, hrank⟩ := exists_rank_eq hneg
      exact Or.inl (h codec hrank)
  · rintro (rfl | ⟨hi, hj, hne⟩) codec hrank
    · rfl
    · rw [rank_of_neg codec hi, rank_of_neg codec hj] at hrank
      exact absurd hrank hne

/-- **An integer and a double** are told apart in every build. -/
theorem forall_mixedApart_iff {i : ℤ} {bits : UInt64} :
    (∀ codec, MixedApart codec i bits) ↔ SurelyApart i bits := by
  constructor
  · intro h
    by_cases hneg : i.bmod (2 ^ 32) < 0
    · have hiff := h .standard
      rw [MixedApart, rank_standard] at hiff
      have hvalue : Binary64.scaledInt i ≠ Binary64.scaled bits := by
        intro hvalue
        have hlo := Int.le_bmod (x := i) (m := 2 ^ 32) (by decide)
        have hrank := hiff.mpr hvalue
        obtain ⟨rfl, -⟩ := Binary64.eq_zero_of_scaledInt_eq (by omega) (by omega) hvalue
        exact absurd hneg (by decide)
      exact ⟨hneg, hvalue, fun hrank => hvalue (hiff.mp hrank)⟩
    · -- one build gives the integer the rank of the double, and another one does not
      obtain ⟨word, -, hword⟩ := encodeDoubleKey_eq bits
      have hsame := rank_overflowing (not_lt.mp hneg) fun _ => word
      have hother := rank_overflowing (not_lt.mp hneg) fun _ => ~~~word
      have hlt := word.toNat_lt
      rw [UInt64.toNat_not, UInt64.size] at hother
      have hvalue := (h (.overflowing fun _ => word)).mp (by omega)
      have hrank := (h (.overflowing fun _ => ~~~word)).mpr hvalue
      omega
  · rintro ⟨hneg, hvalue, hrank⟩ codec
    rw [MixedApart, rank_of_neg codec hneg]
    exact iff_of_false hrank hvalue

/-- **Two scalars are told apart in every build.** -/
theorem forall_keysTell_iff (hv : v.isScalar = true) (hw : w.isScalar = true) :
    (∀ codec, KeysTell codec v w) ↔ SurelyTell v w := by
  cases v with
  | string s =>
    cases w with
    | string t => exact forall_const Codec
    | object members => cases hw
    | array items => cases hw
    | _ => exact forall_ne_spelling_iff rfl
  | integer i =>
    cases w with
    | string t => exact @forall_ne_spelling_iff (.integer i) t rfl
    | integer j => exact forall_rank_eq_imp_iff
    | float bits => exact forall_mixedApart_iff
    | object members => cases hw
    | array items => cases hw
    | _ => exact forall_const Codec
  | float bits =>
    cases w with
    | string t => exact @forall_ne_spelling_iff (.float bits) t rfl
    | integer j => exact forall_mixedApart_iff
    | float bits' => exact forall_const Codec
    | object members => cases hw
    | array items => cases hw
    | _ => exact forall_const Codec
  | object members => cases hv
  | array items => cases hv
  | boolean b =>
    cases w with
    | string t => exact @forall_ne_spelling_iff (.boolean b) t rfl
    | object members => cases hw
    | array items => cases hw
    | _ => exact forall_const Codec
  | null =>
    cases w with
    | string t => exact @forall_ne_spelling_iff .null t rfl
    | object members => cases hw
    | array items => cases hw
    | _ => exact forall_const Codec

/-- **When keys identify exactly the equal values** of two scalars: in every build if they are
surely told apart, and in one build if its words tell them apart. -/
theorem parseValue_eq_iff (hv : v.isScalar = true) (hw : w.isScalar = true) :
    ((∀ codec, parseValue codec v = parseValue codec w ↔ SameValue v w) ↔ SurelyTell v w) ∧
    ∀ codec, (parseValue codec v = parseValue codec w ↔ SameValue v w) ↔ KeysTell codec v w := by
  refine ⟨?_, fun codec => keysTell_iff hv hw⟩
  rw [← forall_keysTell_iff hv hw]
  exact forall_congr' fun codec => keysTell_iff hv hw

/-- The keys of -1 and -2 differ, as they do. -/
theorem parseValue_negOne_negTwo :
    parseValue .standard (.integer (-1)) = parseValue .standard (.integer (-2)) ↔
      SameValue (.integer (-1)) (.integer (-2)) := by
  have htell : SurelyTell (.integer (-1)) (.integer (-2)) :=
    Or.inr ⟨by decide, by decide, by decide⟩
  exact (parseValue_eq_iff rfl rfl).1.mpr htell .standard

/-- **Two integers have one key**: only thirty-two bits of them are looked at; and so have the
truth value and its name. -/
theorem parseValue_eq_of_ne :
    (parseValue .standard (.integer (-1)) = parseValue .standard (.integer (2 ^ 32 - 1)) ∧
      ¬SameValue (.integer (-1)) (.integer (2 ^ 32 - 1))) ∧
    parseValue .standard (.boolean true) = parseValue .standard (.string (Bytes.ofText "true")) ∧
      ¬SameValue (.boolean true) (.string (Bytes.ofText "true")) := by
  refine ⟨⟨rfl, fun h => ?_⟩, rfl, fun h => by cases h.1⟩
  exact absurd (scaledInt_inj.mp h.2.2) (by decide)

end AnuDB
