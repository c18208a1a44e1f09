import Mathlib.Data.List.Lex
import Mathlib.Data.List.Infix
import Mathlib.Order.Std
import Mathlib.Data.UInt
import Mathlib.Data.Nat.Digits.Lemmas
import Std.Data.ExtTreeMap

/-!
# Byte strings in their byte order

A byte string is a `List UInt8`, compared the way an ordered store compares its keys:
lexicographically, byte by byte, unsigned. Three things about that order are needed
by anything that scans such a store, and they are proved here once:

* **a prefix comes first** (`Bytes.le_of_isPrefix`), and the extensions of a string are
  **contiguous** (`Bytes.prefix_of_between`): nothing lies between two of them that is
  not one itself;
* strings of equal length decide a comparison before anything appended to them is
  looked at (`Bytes.append_lt_append_iff`);
* the big-endian digits of a word are in the order of the words
  (`Bytes.bigEndian_lt_iff`).

The second half is about cutting a string at the first occurrence of a marker
(`Bytes.find`), the way a name composed of two parts is taken apart again.
-/

/-- Bytes are compared as unsigned numbers. -/
instance Bytes.instLinearOrderUInt8 : LinearOrder UInt8 where
  le_refl := UInt8.le_refl
  le_trans _ _ _ := UInt8.le_trans
  lt_iff_le_not_ge a b := by
    simp only [UInt8.lt_iff_toNat_lt, UInt8.le_iff_toNat_le]
    omega
  le_antisymm _ _ := UInt8.le_antisymm
  le_total := UInt8.le_total
  toDecidableLE := inferInstance
  toDecidableEq := inferInstance
  toDecidableLT := inferInstance
  toOrd := inferInstance
  compare_eq_compareOfLessAndEq a b := by rfl

/-- A byte string. -/
abbrev Bytes : Type := List UInt8

namespace Bytes

-- a name for what the search would find, so that every membership test carries the same term
instance instLawfulBEq : LawfulBEq Bytes := inferInstance

/-- The bytes of an ASCII text. -/
def ofText (s : String) : Bytes := s.toList.map Char.toUInt8

/-! ### Decimal numbers -/

/-- The decimal digits of a number, as text. -/
def decimal (n : ℕ) : Bytes :=
  if n = 0 then [48] else (Nat.digits 10 n).reverse.map fun d => UInt8.ofNat (48 + d)

/-- The number that digits stand for. -/
def ofDecimal (s : Bytes) : ℕ := s.foldl (fun n b => n * 10 + (b.toNat - 48)) 0

/-- A decimal digit. -/
def IsDigit (b : UInt8) : Prop := 48 ≤ b.toNat ∧ b.toNat ≤ 57

instance (b : UInt8) : Decidable (IsDigit b) := inferInstanceAs (Decidable (_ ∧ _))

theorem toNat_digit {d : ℕ} (h : d < 10) : (UInt8.ofNat (48 + d)).toNat = 48 + d := by
  rw [UInt8.toNat_ofNat', Nat.mod_eq_of_lt (by omega)]

theorem isDigit_of_mem_decimal {n : ℕ} {b : UInt8} (h : b ∈ decimal n) : IsDigit b := by
  rw [decimal] at h
  split_ifs at h with hn
  · obtain rfl := List.mem_singleton.mp h
    decide
  · obtain ⟨d, hd, rfl⟩ := List.mem_map.mp h
    have hlt := Nat.digits_lt_base (by norm_num) (List.mem_reverse.mp hd)
    rw [IsDigit, toNat_digit hlt]
    omega

theorem decimal_ne_nil (n : ℕ) : decimal n ≠ [] := by
  rw [decimal]
  split_ifs with hn
  · simp
  · simpa [Nat.digits_eq_nil_iff_eq_zero] using hn

/-- **What is written in decimal is read back.** -/
theorem ofDecimal_decimal (n : ℕ) : ofDecimal (decimal n) = n := by
  have hfold (l : List ℕ) (hl : ∀ d ∈ l, d < 10) :
      ofDecimal (l.reverse.map fun d => UInt8.ofNat (48 + d)) = Nat.ofDigits 10 l := by
    rw [ofDecimal, List.foldl_map, List.foldl_reverse, Nat.ofDigits_eq_foldr]
    refine List.foldr_ext _ _ 0 fun d hd acc => ?_
    rw [toNat_digit (hl d hd), Nat.add_sub_cancel_left, Nat.mul_comm, Nat.add_comm]
    rfl
  rw [decimal]
  split_ifs with hn
  · rw [hn]
    rfl
  · rw [hfold _ fun d hd => Nat.digits_lt_base (by norm_num) hd, Nat.ofDigits_digits]

/-! ### The byte order -/

/-- The comparison an ordered map uses is the byte order. -/
theorem compare_eq_lt {s t : Bytes} : compare s t = .lt ↔ s < t := by
  change List.compareLex compare s t = .lt ↔ _
  induction s generalizing t with
  | nil => cases t <;> simp [List.compareLex]
  | cons a s ih =>
    cases t with
    | nil => simp [List.compareLex]
    | cons b t =>
      rw [List.cons_lt_cons_iff]
      simp only [List.compareLex]
      have hab := @Std.compare_eq_lt UInt8 _ _ _ _ _ a b
      cases hc : compare a b
      · simp_all
      · obtain rfl : a = b := by simpa using hc
        simp [ih]
      · have hba : b < a := Std.compare_eq_gt.mp hc
        simp [hba.ne', not_lt_of_gt hba]

theorem cons_le_cons_iff {a b : UInt8} {s t : Bytes} :
    a :: s ≤ b :: t ↔ a < b ∨ a = b ∧ s ≤ t := by
  rw [← not_lt, List.cons_lt_cons_iff, ← not_lt]
  rcases lt_trichotomy a b with hab | rfl | hab
  · simp [hab, hab.ne', not_lt_of_gt hab]
  · simp
  · simp [hab, hab.ne', not_lt_of_gt hab]

theorem nil_le (s : Bytes) : ([] : Bytes) ≤ s := by
  rw [← not_lt]
  exact List.not_lt_nil s

/-- A prefix comes first. -/
theorem le_of_isPrefix {p k : Bytes} (h : p <+: k) : p ≤ k := by
  obtain ⟨t, rfl⟩ := h
  induction p with
  | nil => exact nil_le t
  | cons a p ih => exact cons_le_cons_iff.mpr (Or.inr ⟨rfl, ih⟩)

/-- **The extensions of a string are contiguous**: what lies between a string and one
of its extensions is an extension too. -/
theorem prefix_of_between {p k k' : Bytes} (h : p ≤ k) (h' : k ≤ k') (hp : p <+: k') :
    p <+: k := by
  induction p generalizing k k' with
  | nil => exact List.nil_prefix
  | cons a p ih =>
    obtain ⟨t, rfl⟩ := hp
    cases k with
    | nil => exact absurd (List.nil_lt_cons a p) (not_lt.mpr h)
    | cons b k =>
      rw [List.cons_append] at h'
      rcases cons_le_cons_iff.mp h with hab | ⟨rfl, hpk⟩
      · rcases cons_le_cons_iff.mp h' with hba | ⟨rfl, -⟩
        · exact absurd (hab.trans hba) (lt_irrefl a)
        · exact absurd hab (lt_irrefl _)
      · rcases cons_le_cons_iff.mp h' with hlt | ⟨-, hkt⟩
        · exact absurd hlt (lt_irrefl _)
        · exact List.cons_prefix_cons.mpr ⟨rfl, ih hpk hkt ⟨t, rfl⟩⟩

/-- **Strings of equal length decide first**: what is appended to them only matters
when they are equal. -/
theorem append_lt_append_iff {a b : Bytes} (h : a.length = b.length) (x y : Bytes) :
    a ++ x < b ++ y ↔ a < b ∨ a = b ∧ x < y := by
  induction a generalizing b with
  | nil =>
    obtain rfl : b = [] := List.eq_nil_of_length_eq_zero h.symm
    simp
  | cons u a ih =>
    cases b with
    | nil => simp at h
    | cons v b =>
      simp only [List.cons_append, List.cons_lt_cons_iff, ih (by simpa using h),
        List.cons.injEq]
      tauto

/-- A prefix as long as the head of a string is that head. -/
theorem prefix_append_iff_of_length {a b x y : Bytes} (h : a.length = b.length) :
    a ++ x <+: b ++ y ↔ a = b ∧ x <+: y := by
  constructor
  · rintro ⟨t, ht⟩
    rw [List.append_assoc] at ht
    obtain ⟨rfl, rfl⟩ := List.append_inj ht h
    exact ⟨rfl, t, rfl⟩
  · rintro ⟨rfl, hxy⟩
    exact (List.prefix_append_right_inj a).mpr hxy

/-- What comes after a common beginning decides. -/
theorem append_left_lt_iff (p : Bytes) {x y : Bytes} : p ++ x < p ++ y ↔ x < y := by
  rw [append_lt_append_iff rfl]
  exact ⟨fun h => h.elim (fun hlt => absurd hlt (lt_irrefl p)) And.right, fun h => Or.inr ⟨rfl, h⟩⟩

/-- **Two strings**: one continues the other, or they differ in a byte after a common beginning. -/
theorem continues_or_differs (s t : Bytes) : (∃ u, t = s ++ u) ∨ (∃ u, s = t ++ u) ∨
    ∃ p a b s' t', s = p ++ a :: s' ∧ t = p ++ b :: t' ∧ a ≠ b := by
  induction s generalizing t with
  | nil => exact Or.inl ⟨t, rfl⟩
  | cons a s ih =>
    cases t with
    | nil => exact Or.inr (Or.inl ⟨a :: s, rfl⟩)
    | cons b t =>
      by_cases hab : a = b
      · subst hab
        rcases ih t with ⟨u, rfl⟩ | ⟨u, rfl⟩ | ⟨p, c, d, s', t', rfl, rfl, hne⟩
        · exact Or.inl ⟨u, rfl⟩
        · exact Or.inr (Or.inl ⟨u, rfl⟩)
        · exact Or.inr (Or.inr ⟨a :: p, c, d, s', t', rfl, rfl, hne⟩)
      · exact Or.inr (Or.inr ⟨[], a, b, s, t, rfl, rfl, hab⟩)

/-- A byte in which strings differ decides, whatever comes after it. -/
theorem differs_lt_iff {a b : UInt8} (hne : a ≠ b) (p x y : Bytes) :
    p ++ a :: x < p ++ b :: y ↔ a < b := by
  rw [append_left_lt_iff, List.cons_lt_cons_iff]
  exact or_iff_left fun h => hne h.1

/-! ### Words, big-endian -/

/-- The last `k` digits of a number to base 256, the most significant first. -/
def digits : ℕ → ℕ → Bytes
  | 0, _ => []
  | k + 1, n => UInt8.ofNat (n / 256 ^ k) :: digits k n

@[simp] theorem length_digits (k n : ℕ) : (digits k n).length = k := by
  induction k with
  | zero => rfl
  | succ k ih => simp [digits, ih]

/-- **The digits are in the order of the numbers**, as far as they go. -/
theorem digits_lt_iff (k n m : ℕ) : digits k n < digits k m ↔ n % 256 ^ k < m % 256 ^ k := by
  induction k with
  | zero => simp [digits, Nat.mod_one]
  | succ k ih =>
    have hn := Nat.mod_lt n (Nat.pow_pos (n := k) (by decide : 0 < 256))
    have hm := Nat.mod_lt m (Nat.pow_pos (n := k) (by decide : 0 < 256))
    rw [digits, digits, List.cons_lt_cons_iff, ih, Nat.mod_pow_succ, Nat.mod_pow_succ,
      UInt8.lt_iff_toNat_lt, ← UInt8.toNat_inj, UInt8.toNat_ofNat', UInt8.toNat_ofNat']
    rcases lt_trichotomy (n / 256 ^ k % 256) (m / 256 ^ k % 256) with hlt | heq | hlt
    · have hle := Nat.mul_le_mul_left (256 ^ k) hlt
      rw [Nat.mul_succ] at hle
      refine iff_of_true (Or.inl hlt) ?_
      omega
    · simp [heq]
    · have hle := Nat.mul_le_mul_left (256 ^ k) hlt
      rw [Nat.mul_succ] at hle
      refine iff_of_false (fun hc => ?_) ?_ <;> omega

/-- The eight bytes of a word, the most significant first. -/
def bigEndian (w : UInt64) : Bytes :=
  [(w >>> 56).toUInt8, (w >>> 48).toUInt8, (w >>> 40).toUInt8, (w >>> 32).toUInt8,
    (w >>> 24).toUInt8, (w >>> 16).toUInt8, (w >>> 8).toUInt8, w.toUInt8]

@[simp] theorem length_bigEndian (w : UInt64) : (bigEndian w).length = 8 := rfl

theorem bigEndian_eq_digits (w : UInt64) : bigEndian w = digits 8 w.toNat := by
  simp [bigEndian, digits, ← UInt8.toNat_inj, Nat.shiftRight_eq_div_pow]

/-- **The big-endian bytes are in the order of the words.** -/
theorem bigEndian_lt_iff {w w' : UInt64} : bigEndian w < bigEndian w' ↔ w < w' := by
  have hw := w.toNat_lt
  have hw' := w'.toNat_lt
  rw [bigEndian_eq_digits, bigEndian_eq_digits, digits_lt_iff, UInt64.lt_iff_toNat_lt]
  omega

theorem bigEndian_injective {w w' : UInt64} (h : bigEndian w = bigEndian w') : w = w' := by
  have h1 : ¬w < w' := fun hc => absurd (h ▸ bigEndian_lt_iff.mpr hc) (lt_irrefl _)
  have h2 : ¬w' < w := fun hc => absurd (h ▸ bigEndian_lt_iff.mpr hc) (lt_irrefl _)
  rw [UInt64.lt_iff_toNat_lt] at h1 h2
  rw [← UInt64.toNat_inj]
  omega

/-- A byte, shifted in below a word. -/
def shiftIn (value : UInt64) (b : UInt8) : UInt64 := value <<< 8 ||| b.toUInt64

/-- The word that bytes are the digits of: each is shifted in below those before it. -/
def ofBigEndian (s : Bytes) : UInt64 := s.foldl shiftIn 0

/-- The number that digits to base 256 make of one that stands before them. -/
def pushDigits (n : ℕ) (s : Bytes) : ℕ := s.foldl (fun n b => n * 256 + b.toNat) n

theorem pushDigits_bounds (n : ℕ) (s : Bytes) :
    n * 256 ^ s.length ≤ pushDigits n s ∧ pushDigits n s < (n + 1) * 256 ^ s.length := by
  induction s generalizing n with
  | nil => simp [pushDigits]
  | cons b s ih =>
    have hb := b.toNat_lt
    obtain ⟨hlo, hhi⟩ := ih (n * 256 + b.toNat)
    rw [List.length_cons, Nat.pow_succ', ← Nat.mul_assoc, ← Nat.mul_assoc]
    refine ⟨le_trans (Nat.mul_le_mul_right _ ?_) hlo, lt_of_lt_of_le hhi (Nat.mul_le_mul_right _ ?_)⟩
    · omega
    · omega

/-- What is pushed are the last digits. -/
theorem digits_pushDigits (n : ℕ) (s : Bytes) : digits s.length (pushDigits n s) = s := by
  induction s generalizing n with
  | nil => rfl
  | cons b s ih =>
    obtain ⟨hlo, hhi⟩ := pushDigits_bounds (n * 256 + b.toNat) s
    have hdiv : pushDigits (n * 256 + b.toNat) s / 256 ^ s.length = n * 256 + b.toNat :=
      Nat.div_eq_of_lt_le hlo hhi
    show UInt8.ofNat (pushDigits (n * 256 + b.toNat) s / 256 ^ s.length) ::
      digits s.length (pushDigits (n * 256 + b.toNat) s) = b :: s
    have hlast : UInt8.ofNat (n * 256 + b.toNat) = b := by
      have hb := b.toNat_lt
      rw [← UInt8.toNat_inj, UInt8.toNat_ofNat']
      omega
    rw [hdiv, ih, hlast]

/-- **Shifting bytes in is pushing digits**, as long as none is shifted out. -/
theorem toNat_foldl_shiftIn {value : UInt64} (s : Bytes)
    (h : (value.toNat + 1) * 256 ^ s.length ≤ 2 ^ 64) :
    (s.foldl shiftIn value).toNat = pushDigits value.toNat s := by
  induction s generalizing value with
  | nil => rfl
  | cons b s ih =>
    have hb := b.toNat_lt
    rw [List.length_cons, Nat.pow_succ', ← Nat.mul_assoc] at h
    have hpos : 0 < 256 ^ s.length := Nat.pow_pos (by decide)
    have hsmall : (value.toNat + 1) * 256 ≤ 2 ^ 64 :=
      le_trans (Nat.le_mul_of_pos_right _ hpos) h
    -- the byte goes where the shift has left zeros
    have hstep : (shiftIn value b).toNat = value.toNat * 256 + b.toNat := by
      rw [shiftIn, UInt64.toNat_or, UInt64.toNat_shiftLeft, UInt8.toNat_toUInt64]
      have hshift : value.toNat <<< 8 = value.toNat * 256 := Nat.shiftLeft_eq _ _
      show value.toNat <<< 8 % 2 ^ 64 ||| b.toNat = _
      rw [Nat.mod_eq_of_lt (by omega), ← Nat.shiftLeft_add_eq_or_of_lt (by omega), hshift]
    rw [List.foldl_cons, ih, hstep]
    · rfl
    · rw [hstep]
      refine le_trans (Nat.mul_le_mul_right _ ?_) h
      omega

theorem bigEndian_ofBigEndian {s : Bytes} (h : s.length = 8) : bigEndian (ofBigEndian s) = s := by
  have hnat : (ofBigEndian s).toNat = pushDigits 0 s := toNat_foldl_shiftIn s (by rw [h]; decide)
  rw [bigEndian_eq_digits, hnat, ← h, digits_pushDigits]

/-- **What is split into bytes is put together again.** -/
theorem ofBigEndian_bigEndian (w : UInt64) : ofBigEndian (bigEndian w) = w :=
  bigEndian_injective (bigEndian_ofBigEndian rfl)

/-! ### The first occurrence of a marker -/

/-- The position of the first occurrence of `d`, if it occurs. -/
def find (d : Bytes) : Bytes → Option ℕ
  | [] => if d.isPrefixOf [] then some 0 else none
  | b :: s => if d.isPrefixOf (b :: s) then some 0 else (find d s).map (· + 1)

theorem find_eq_some_iff {d s : Bytes} {p : ℕ} :
    find d s = some p ↔ p ≤ s.length ∧ d <+: s.drop p ∧ ∀ q < p, ¬d <+: s.drop q := by
  induction s generalizing p with
  | nil =>
    by_cases hd : d.isPrefixOf []
    · simp only [find, hd, if_true, Option.some.injEq, List.drop_nil, List.length_nil]
      rw [List.isPrefixOf_iff_prefix] at hd
      constructor
      · rintro rfl
        exact ⟨le_rfl, hd, fun q hq => absurd hq (Nat.not_lt_zero q)⟩
      · rintro ⟨hp, -, -⟩
        exact (Nat.le_zero.mp hp).symm
    · simp only [find, hd, List.drop_nil]
      rw [List.isPrefixOf_iff_prefix] at hd
      simp [hd]
  | cons b s ih =>
    by_cases hd : d.isPrefixOf (b :: s)
    · simp only [find, hd, if_true, Option.some.injEq]
      rw [List.isPrefixOf_iff_prefix] at hd
      constructor
      · rintro rfl
        exact ⟨Nat.zero_le _, hd, fun q hq => absurd hq (Nat.not_lt_zero q)⟩
      · rintro ⟨-, -, hmin⟩
        by_contra hp
        exact hmin 0 (Nat.pos_of_ne_zero fun h => hp h.symm) hd
    · simp only [find, hd]
      rw [List.isPrefixOf_iff_prefix] at hd
      cases p with
      | zero => simp [hd]
      | succ p =>
        simp only [Bool.false_eq_true, if_false, Option.map_eq_some_iff, Nat.add_right_cancel_iff,
          exists_eq_right, ih, List.length_cons, Nat.add_le_add_iff_right, List.drop_succ_cons]
        refine and_congr_right fun _ => and_congr_right fun _ => ⟨fun hmin q hq => ?_,
          fun hmin q hq => by simpa using hmin (q + 1) (by omega)⟩
        cases q with
        | zero => exact hd
        | succ q => exact hmin q (by omega)

theorem find_eq_none_iff {d s : Bytes} : find d s = none ↔ ¬d <:+: s := by
  induction s with
  | nil => simp [find, List.isPrefixOf_iff_prefix]
  | cons b s ih =>
    rw [find, List.infix_cons_iff, ← List.isPrefixOf_iff_prefix]
    split_ifs with hd <;> simp [hd, ih]

/-- A first occurrence stays one whatever follows. -/
theorem find_append {d s : Bytes} {p : ℕ} (h : find d s = some p) (t : Bytes) :
    find d (s ++ t) = some p := by
  obtain ⟨hp, hd, hmin⟩ := find_eq_some_iff.mp h
  refine find_eq_some_iff.mpr ⟨by rw [List.length_append]; omega, ?_, fun q hq hc => ?_⟩
  · rw [List.drop_append_of_le_length hp]
    exact hd.trans (List.prefix_append _ _)
  · rw [List.drop_append_of_le_length (by omega)] at hc
    refine hmin q hq (List.prefix_of_prefix_length_le hc (List.prefix_append _ _) ?_)
    have hlen := hd.length_le
    rw [List.length_drop] at hlen ⊢
    omega

/-- A marker that has been appended does occur, at the join at the latest. -/
theorem exists_find_append (d s : Bytes) :
    ∃ p, find d (s ++ d) = some p ∧ p ≤ s.length := by
  have hocc : d <+: (s ++ d).drop s.length := by simp
  rcases hf : find d (s ++ d) with _ | p
  · exact absurd ⟨s, [], by simp⟩ (find_eq_none_iff.mp hf)
  · refine ⟨p, rfl, Nat.le_of_not_lt fun hlt => ?_⟩
    exact (find_eq_some_iff.mp hf).2.2 _ hlt hocc

/-- The string is what stands before the first occurrence, the marker, and what
follows it. -/
theorem take_append_drop_of_find {d s : Bytes} {p : ℕ} (h : find d s = some p) :
    s.take p ++ d ++ s.drop (p + d.length) = s := by
  obtain ⟨-, ⟨t, ht⟩, -⟩ := find_eq_some_iff.mp h
  have hdrop : s.drop (p + d.length) = t := by
    rw [← List.drop_drop, ← ht, List.drop_left]
  rw [hdrop, List.append_assoc, ht, List.take_append_drop]

end Bytes
