import Mathlib.Algebra.Order.Ring.Nat
import Mathlib.Order.Monotone.Basic
import Mathlib.Tactic.Ring
import Mathlib.Data.UInt
import Mathlib.Data.Nat.Bitwise

/-!
# Doubles as bit patterns

A double is a sign bit, eleven exponent bits and fifty-two mantissa bits. Read as a
number, the sixty-three bits below the sign are its **magnitude field**, and the whole
of what comparison needs is one fact about it: the value of a magnitude field is
strictly increasing in the field (`Binary64.mag_strictMono`). Sorting doubles is
sorting magnitude fields, upwards for the positive and downwards for the negative –
which is the order of `Binary64.signMagnitude`, an integer – except that the two zeros
have one value and two patterns (`Binary64.cmp_signMagnitude_eq_iff`).

Values are integers here: a finite double is a multiple of `2 ^ -1074`, and
`Binary64.scaled` is that multiple. An integer `i` has the scaled value
`i * 2 ^ 1074` (`Binary64.scaledInt`), so integers and doubles compare exactly.
-/

namespace Binary64

/-- The magnitude field: everything below the sign bit. -/
def field (bits : UInt64) : ℕ := bits.toNat % 2 ^ 63

/-- Whether the sign bit is set. -/
def negative (bits : UInt64) : Prop := 2 ^ 63 ≤ bits.toNat

instance (bits : UInt64) : Decidable (negative bits) := Nat.decLe _ _

/-- The sign bit, masked out. -/
theorem and_signBit_ne_zero_iff {bits : UInt64} :
    bits &&& 0x8000000000000000 ≠ 0 ↔ negative bits := by
  have hlt := bits.toNat_lt
  rw [ne_eq, ← UInt64.toNat_inj, UInt64.toNat_and, negative]
  change ¬bits.toNat &&& 2 ^ 63 = 0 ↔ _
  rw [Nat.and_two_pow, Nat.testBit_eq_decide_div_mod_eq]
  rcases Nat.mod_two_eq_zero_or_one (bits.toNat / 2 ^ 63) with h | h <;> rw [h] <;> simp <;>
    omega

/-- A pattern without a sign, given one. -/
theorem toNat_or_signBit {bits : UInt64} (h : ¬negative bits) :
    (bits ||| 0x8000000000000000).toNat = bits.toNat + 2 ^ 63 := by
  rw [negative] at h
  have hor : 2 ^ 63 * 1 + bits.toNat = 2 ^ 63 * 1 ||| bits.toNat :=
    Nat.two_pow_add_eq_or_of_lt (by omega) 1
  rw [UInt64.toNat_or]
  change bits.toNat ||| 2 ^ 63 = _
  rw [Nat.or_comm, ← Nat.mul_one (2 ^ 63), ← hor]
  omega

/-- The sign, taken away. -/
theorem toNat_and_not_signBit (bits : UInt64) :
    (bits &&& 0x7FFFFFFFFFFFFFFF).toNat = field bits := by
  rw [UInt64.toNat_and, field]
  exact Nat.and_two_pow_sub_one_eq_mod bits.toNat 63

/-- The scaled value of a magnitude field: subnormals have exponent zero and no
implicit bit. -/
def mag (m : ℕ) : ℕ :=
  if m / 2 ^ 52 = 0 then m % 2 ^ 52 else (2 ^ 52 + m % 2 ^ 52) * 2 ^ (m / 2 ^ 52 - 1)

/-- A pattern of a finite double: its exponent is not the greatest. -/
def Finite (bits : UInt64) : Prop := field bits < 2047 * 2 ^ 52

instance (bits : UInt64) : Decidable (Finite bits) := Nat.decLt _ _

/-- **The value of a finite double**, in units of `2 ^ -1074`. -/
def scaled (bits : UInt64) : ℤ := if negative bits then -(mag (field bits)) else mag (field bits)

/-- The value of an integer, in the same units. -/
def scaledInt (i : ℤ) : ℤ := i * 2 ^ 1074

/-- **The sign-magnitude order**, as an integer: the field above zero, and below it the
negative fields, each one further down. -/
def signMagnitude (bits : UInt64) : ℤ :=
  if negative bits then -1 - (field bits : ℤ) else field bits

/-! ### The value of a magnitude field -/

theorem mag_lt_mag_succ (m : ℕ) : mag m < mag (m + 1) := by
  have hdiv := Nat.div_add_mod m (2 ^ 52)
  have hmod := Nat.mod_lt m (Nat.two_pow_pos 52)
  generalize he : m / 2 ^ 52 = e at hdiv
  generalize hf : m % 2 ^ 52 = f at hdiv hmod
  rcases Nat.lt_or_ge (f + 1) (2 ^ 52) with hlt | hge
  · -- the mantissa takes the increment
    have he' : (m + 1) / 2 ^ 52 = e := by omega
    have hf' : (m + 1) % 2 ^ 52 = f + 1 := by omega
    rw [mag, mag, he, hf, he', hf']
    split_ifs
    · omega
    · exact Nat.mul_lt_mul_of_pos_right (by omega) (Nat.two_pow_pos _)
  · -- the mantissa is full: the exponent takes it
    have he' : (m + 1) / 2 ^ 52 = e + 1 := by omega
    have hf' : (m + 1) % 2 ^ 52 = 0 := by omega
    rw [mag, mag, he, hf, he', hf', if_neg (Nat.succ_ne_zero e), Nat.add_sub_cancel]
    rcases Nat.eq_zero_or_pos e with rfl | hpos
    · rw [if_pos rfl]
      omega
    · obtain ⟨d, rfl⟩ : ∃ d, e = d + 1 := ⟨e - 1, by omega⟩
      rw [if_neg (Nat.succ_ne_zero d), Nat.add_sub_cancel]
      calc (2 ^ 52 + f) * 2 ^ d < (2 ^ 52 + 2 ^ 52) * 2 ^ d :=
            Nat.mul_lt_mul_of_pos_right (by omega) (Nat.two_pow_pos d)
        _ = (2 ^ 52 + 0) * 2 ^ (d + 1) := by ring

/-- **A greater magnitude field has the greater value.** -/
theorem mag_strictMono : StrictMono mag := strictMono_nat_of_lt_succ mag_lt_mag_succ

@[simp] theorem mag_zero : mag 0 = 0 := by decide

theorem mag_pos {m : ℕ} (h : m ≠ 0) : 0 < mag m := by
  have := mag_strictMono (Nat.pos_of_ne_zero h)
  rwa [mag_zero] at this

/-! ### Comparing doubles -/

/-- A pattern is its sign and its magnitude field. -/
theorem eq_of_field_eq {x y : UInt64} (hf : field x = field y)
    (hs : negative x ↔ negative y) : x = y := by
  have hx := x.toNat_lt
  have hy := y.toNat_lt
  simp only [field, negative] at hf hs
  rw [← UInt64.toNat_inj]
  omega

/-- Two patterns are **the two zeros**: the same value under two signs. -/
def Zeros (x y : UInt64) : Prop := field x = 0 ∧ field y = 0 ∧ x ≠ y

instance (x y : UInt64) : Decidable (Zeros x y) := by unfold Zeros; infer_instance

theorem scaled_lt_iff_of_not_zeros {x y : UInt64} (h : ¬Zeros x y) :
    scaled x < scaled y ↔ signMagnitude x < signMagnitude y := by
  have hxy : field x = 0 → field y = 0 → (negative x ↔ negative y) := by
    intro hx hy
    by_contra hc
    exact h ⟨hx, hy, fun heq => hc (by rw [heq])⟩
  have hmono : (mag (field x) : ℤ) < mag (field y) ↔ (field x : ℤ) < field y := by
    rw [Int.ofNat_lt, Int.ofNat_lt]
    exact mag_strictMono.lt_iff_lt
  have hmono' : (mag (field y) : ℤ) < mag (field x) ↔ (field y : ℤ) < field x := by
    rw [Int.ofNat_lt, Int.ofNat_lt]
    exact mag_strictMono.lt_iff_lt
  have hx0 : 0 ≤ (mag (field x) : ℤ) := Int.natCast_nonneg _
  have hy0 : 0 ≤ (mag (field y) : ℤ) := Int.natCast_nonneg _
  by_cases hx : negative x <;> by_cases hy : negative y <;>
    simp only [scaled, signMagnitude, hx, hy, if_true, if_false]
  · omega
  · refine iff_of_true ?_ (by omega)
    rcases eq_or_ne (field x) 0 with hfx | hfx
    · have hfy : field y ≠ 0 := fun hfy => hy ((hxy hfx hfy).mp hx)
      have := mag_pos hfy
      omega
    · have := mag_pos hfx
      omega
  · refine iff_of_false ?_ (by omega)
    omega
  · exact hmono

/-- The two zeros have different patterns, in that order too. -/
theorem signMagnitude_ne_of_zeros {x y : UInt64} (h : Zeros x y) :
    signMagnitude x ≠ signMagnitude y := by
  obtain ⟨hx, hy, hne⟩ := h
  intro hsm
  refine hne (eq_of_field_eq (hx.trans hy.symm) ?_)
  simp only [signMagnitude, hx, hy] at hsm
  by_cases h1 : negative x <;> by_cases h2 : negative y <;> simp_all

theorem scaled_eq_of_zeros {x y : UInt64} (h : Zeros x y) : scaled x = scaled y := by
  simp [scaled, h.1, h.2.1]

/-- **Sign-magnitude order is numerical order**, except between the two zeros. -/
theorem cmp_signMagnitude_eq_iff {x y : UInt64} :
    cmp (signMagnitude x) (signMagnitude y) = cmp (scaled x) (scaled y) ↔ ¬Zeros x y := by
  constructor
  · intro heq h
    refine signMagnitude_ne_of_zeros h ?_
    rw [← cmp_eq_eq_iff, heq, cmp_eq_eq_iff, scaled_eq_of_zeros h]
  · intro h
    have h' : ¬Zeros y x := fun hc => h ⟨hc.2.1, hc.1, hc.2.2.symm⟩
    rw [cmp, cmp, cmpUsing, cmpUsing]
    simp only [scaled_lt_iff_of_not_zeros h, scaled_lt_iff_of_not_zeros h']

/-- Patterns are the same in that order when they have the same value, except the two zeros. -/
theorem signMagnitude_eq_iff {x y : UInt64} :
    (signMagnitude x = signMagnitude y ↔ scaled x = scaled y) ↔ ¬Zeros x y := by
  constructor
  · exact fun hiff h => signMagnitude_ne_of_zeros h (hiff.mpr (scaled_eq_of_zeros h))
  · intro h
    rw [← cmp_eq_eq_iff, cmp_signMagnitude_eq_iff.mpr h, cmp_eq_eq_iff]

/-- An integer that is worth a double below the least normal ones is zero, and so is the
double. -/
theorem eq_zero_of_scaledInt_eq {i : ℤ} {bits : UInt64} (hlo : -(2 ^ 52) ≤ signMagnitude bits)
    (hhi : signMagnitude bits < 2 ^ 52) (h : scaledInt i = scaled bits) :
    i = 0 ∧ field bits = 0 := by
  have hfield : field bits < 2 ^ 52 := by
    rw [signMagnitude] at hlo hhi
    split_ifs at hlo hhi <;> omega
  have hmag : mag (field bits) = field bits := by
    rw [mag, if_pos (Nat.div_eq_of_lt hfield), Nat.mod_eq_of_lt hfield]
  have hvalue : i.natAbs * 2 ^ 1074 = field bits := by
    have habs := congrArg Int.natAbs h
    have htwo : (2 : ℤ).natAbs = 2 := rfl
    rw [scaledInt, Int.natAbs_mul, Int.natAbs_pow, htwo, scaled, hmag] at habs
    rw [habs]
    split_ifs
    · rw [Int.natAbs_neg, Int.natAbs_natCast]
    · rw [Int.natAbs_natCast]
  have hzero : i.natAbs = 0 := by
    by_contra hne
    have hlarge : 2 ^ 1074 ≤ i.natAbs * 2 ^ 1074 :=
      Nat.le_mul_of_pos_left _ (Nat.pos_of_ne_zero hne)
    rw [hvalue] at hlarge
    have hpow : 2 ^ 52 ≤ 2 ^ 1074 := pow_right_mono₀ one_le_two (by decide)
    have hle : 2 ^ 52 ≤ field bits := le_trans hpow hlarge
    exact absurd hfield (not_lt_of_ge hle)
  rw [hzero, Nat.zero_mul] at hvalue
  exact ⟨Int.natAbs_eq_zero.mp hzero, hvalue.symm⟩

/-! ### Sign-magnitude order, said of the patterns -/

/-- **One pattern precedes another**: the negative ones come first, a greater magnitude field comes
first among them, and a smaller one among the others. -/
def Precedes (x y : UInt64) : Prop :=
  if negative x then negative y → field y < field x else ¬negative y ∧ field x < field y

theorem precedes_iff {x y : UInt64} : Precedes x y ↔ signMagnitude x < signMagnitude y := by
  rw [Precedes, signMagnitude, signMagnitude]
  by_cases hx : negative x
  · rw [if_pos hx, if_pos hx]
    by_cases hy : negative y
    · rw [if_pos hy, imp_iff_right hy]
      omega
    · rw [if_neg hy]
      exact iff_of_true (fun h => absurd h hy) (by omega)
  · rw [if_neg hx, if_neg hx]
    by_cases hy : negative y
    · rw [if_pos hy]
      exact iff_of_false (fun h => h.1 hy) (by omega)
    · rw [if_neg hy, and_iff_right hy]
      omega

/-- The pattern of `-0.0`. -/
def negativeZero : UInt64 := 0x8000000000000000

theorem zeros_iff {x y : UInt64} :
    Zeros x y ↔ x = negativeZero ∧ y = 0 ∨ x = 0 ∧ y = negativeZero := by
  constructor
  · rintro ⟨hx, hy, hne⟩
    -- a pattern without a magnitude is that of one of the zeros
    have hzero {z : UInt64} (hz : field z = 0) : z = negativeZero ∨ z = 0 := by
      by_cases hneg : negative z
      · exact Or.inl (eq_of_field_eq (hz.trans rfl) (iff_of_true hneg (by decide)))
      · exact Or.inr (eq_of_field_eq (hz.trans rfl) (iff_of_false hneg (by decide)))
    rcases hzero hx with rfl | rfl <;> rcases hzero hy with rfl | rfl
    · exact absurd rfl hne
    · exact Or.inl ⟨rfl, rfl⟩
    · exact Or.inr ⟨rfl, rfl⟩
    · exact absurd rfl hne
  · rintro (⟨rfl, rfl⟩ | ⟨rfl, rfl⟩) <;> decide

/-- **The order is numerical**, with `-0.0` before `0.0`. -/
theorem precedes_iff_scaled {x y : UInt64} :
    Precedes x y ↔ scaled x < scaled y ∨ x = negativeZero ∧ y = 0 := by
  by_cases hzeros : Zeros x y
  · rcases zeros_iff.mp hzeros with ⟨rfl, rfl⟩ | ⟨rfl, rfl⟩
    · exact iff_of_true (precedes_iff.mpr (by decide)) (Or.inr ⟨rfl, rfl⟩)
    · refine iff_of_false (fun h => absurd (precedes_iff.mp h) (by decide)) ?_
      rintro (h | h)
      · exact absurd h (by decide)
      · exact absurd h.1 (by decide)
  · rw [precedes_iff, ← scaled_lt_iff_of_not_zeros hzeros]
    exact (or_iff_left fun h => hzeros (zeros_iff.mpr (Or.inl h))).symm

/-- Nothing is between the two zeros. -/
theorem not_between_zeros (z : UInt64) : ¬(Precedes negativeZero z ∧ Precedes z 0) := by
  rintro ⟨hlo, hhi⟩
  rw [precedes_iff] at hlo hhi
  have hnegative : signMagnitude negativeZero = -1 := by decide
  have hzero : signMagnitude 0 = 0 := by decide
  omega

end Binary64
