import AnuDB.Collection
import Mathlib.Data.Nat.Init

/-!
# Generated ids

A generated id is the time, written with eight digits to base sixty-three, and four random
characters. The base is `sizeof` of the string literal the characters are taken from, which counts
the NUL at its end; the random characters are drawn with one less.

Sixty-three to the eighth is more than there are times and no character of the literal occurs
twice, so the time is read back from its characters: ids of two seconds differ
(`AnuDB.generateId_ne_of_timestamp_ne`). The price is the digit sixty-two, which is written as the
NUL. An id is the text it looks like when no digit of the time is that one
(`AnuDB.cleanId_iff`), and in the second number sixty-two it is not.
-/

namespace AnuDB

theorem length_alphanum : alphanum.length = 63 := by decide

theorem nodup_alphanum : alphanum.Nodup := by decide

/-! ### Ids of two times -/

/-- Two characters are one if the digits are. -/
theorem alphanum_getD_inj {d d' : ℕ} (hd : d < 63) (hd' : d' < 63) :
    alphanum.getD d 0 = alphanum.getD d' 0 ↔ d = d' := by
  rw [← length_alphanum] at hd hd'
  rw [List.getD_eq_getElem _ _ hd, List.getD_eq_getElem _ _ hd', nodup_alphanum.getElem_inj_iff]

/-- **The time characters are the last digits of the time**, and no more and no less. -/
theorem timeCharacters_eq_iff (n timestamp timestamp' : ℕ) :
    timeCharacters n timestamp = timeCharacters n timestamp' ↔
      timestamp % 63 ^ n = timestamp' % 63 ^ n := by
  induction n generalizing timestamp timestamp' with
  | zero => simp [timeCharacters, Nat.mod_one]
  | succ n ih =>
    have hd := Nat.mod_lt timestamp (show 0 < 63 by omega)
    have hd' := Nat.mod_lt timestamp' (show 0 < 63 by omega)
    rw [timeCharacters, timeCharacters, length_alphanum, List.cons.injEq,
      alphanum_getD_inj hd hd', ih, Nat.pow_succ', Nat.mod_mul, Nat.mod_mul]
    omega

/-- **Ids of two seconds differ**, whatever is drawn. -/
theorem generateId_ne_of_timestamp_ne {entropy entropy' : Entropy}
    (h : entropy.timestamp ≠ entropy'.timestamp) : generateId entropy ≠ generateId entropy' := by
  intro heq
  have hlength (x y : ℕ) : (timeCharacters 8 x).length = (timeCharacters 8 y).length := by
    rw [length_timeCharacters, length_timeCharacters]
  have htime := (List.append_inj heq (hlength _ _)).1
  rw [timeCharacters_eq_iff] at htime
  -- eight digits hold every time
  have hlt := entropy.timestamp.toNat_lt
  have hlt' := entropy'.timestamp.toNat_lt
  refine h (UInt32.toNat_inj.mp ?_)
  rwa [Nat.mod_eq_of_lt (by omega), Nat.mod_eq_of_lt (by omega)] at htime

/-- The first two seconds. -/
theorem generateId_zero_ne_one :
    generateId ⟨0, fun _ => 0⟩ ≠ generateId ⟨1, fun _ => 0⟩ :=
  generateId_ne_of_timestamp_ne (by decide)

/-! ### What an id is made of -/

/-- One of `0-9`, `A-Z` and `a-z`. -/
def IsAlphanumeric (b : UInt8) : Prop :=
  48 ≤ b.toNat ∧ b.toNat ≤ 57 ∨ 65 ≤ b.toNat ∧ b.toNat ≤ 90 ∨ 97 ≤ b.toNat ∧ b.toNat ≤ 122

instance (b : UInt8) : Decidable (IsAlphanumeric b) := inferInstanceAs (Decidable (_ ∨ _ ∨ _))

/-- **An id is the text it looks like**: twelve characters, and all of them alphanumeric. -/
def CleanId (id : Bytes) : Prop := id.length = 12 ∧ ∀ b ∈ id, IsAlphanumeric b

/-- The character of a digit is alphanumeric, and the last one is the NUL. -/
theorem isAlphanumeric_getD_iff {d : ℕ} (hd : d < 63) :
    IsAlphanumeric (alphanum.getD d 0) ↔ d ≠ 62 := by
  constructor
  · rintro h rfl
    exact absurd h (by decide)
  · intro hne
    have hall : ((alphanum.take 62).all fun b => IsAlphanumeric b) = true := by decide
    have hmem : alphanum.getD d 0 ∈ alphanum.take 62 := by
      have hlt : d < alphanum.length := length_alphanum ▸ hd
      rw [List.getD_eq_getElem _ _ hlt, List.mem_take_iff_getElem]
      exact ⟨d, by omega, rfl⟩
    exact of_decide_eq_true (List.all_eq_true.mp hall _ hmem)

/-- What holds of the time characters holds of the characters of the digits. -/
theorem forall_mem_timeCharacters_iff (p : UInt8 → Prop) (n timestamp : ℕ) :
    (∀ b ∈ timeCharacters n timestamp, p b) ↔
      ∀ i < n, p (alphanum.getD (timestamp / 63 ^ i % 63) 0) := by
  induction n generalizing timestamp with
  | zero => simp [timeCharacters]
  | succ n ih =>
    rw [timeCharacters, length_alphanum, List.forall_mem_cons, ih, Nat.forall_lt_succ_left]
    simp only [Nat.pow_zero, Nat.div_one, Nat.div_div_eq_div_mul, Nat.pow_succ']

/-- **Which ids are clean**: those of the times without the digit sixty-two. The random characters
never are the NUL. -/
theorem cleanId_iff (entropy : Entropy) : CleanId (generateId entropy) ↔
    ∀ i < 8, entropy.timestamp.toNat / 63 ^ i % 63 ≠ 62 := by
  have hdigit (i : ℕ) : IsAlphanumeric (alphanum.getD (entropy.timestamp.toNat / 63 ^ i % 63) 0) ↔
      entropy.timestamp.toNat / 63 ^ i % 63 ≠ 62 :=
    isAlphanumeric_getD_iff (Nat.mod_lt _ (by omega))
  have hrandom : ∀ b ∈ List.ofFn fun i => alphanum.getD (entropy.draws i % (alphanum.length - 1)) 0,
      IsAlphanumeric b := by
    intro b hb
    obtain ⟨i, rfl⟩ := List.mem_ofFn.mp hb
    have hlt : entropy.draws i % (alphanum.length - 1) < 62 :=
      Nat.mod_lt _ (by rw [length_alphanum]; omega)
    exact (isAlphanumeric_getD_iff (by omega)).mpr (by omega)
  rw [CleanId, and_iff_right (length_generateId entropy), generateId, List.forall_mem_append,
    and_iff_left hrandom, forall_mem_timeCharacters_iff]
  exact forall₂_congr fun i _ => hdigit i

/-- **The second number sixty-two** begins its ids with a NUL. -/
theorem not_cleanId_of_nul : ¬CleanId (generateId ⟨62, fun _ => 0⟩) := by
  rintro ⟨-, hall⟩
  exact absurd (hall 0 (by decide)) (by decide)

end AnuDB
