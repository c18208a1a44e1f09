import AnuDB.Lib.Bytes

/-!
# Scans of a sorted list of entries

An ordered store is scanned through an iterator: it is put at a key – at the first entry
not before it (`Scan.seek`) or at the last entry not after it (`Scan.seekForPrev`) – and
moved on from there, while some condition lasts. Each such loop takes or drops a
beginning of a list, and where the condition can only be lost once on the way it might as
well have filtered it (`Scan.takeWhile_eq_filter`, `Scan.dropWhile_eq_filter`).

For byte strings, three loops that are started at one string `p` cut the list in three:
what comes before `p` (`Scan.lesser`), the extensions of `p` (`Scan.equal`) and what
comes after those (`Scan.greater`). They leave nothing out and have nothing in common
(`Scan.reverse_lesser_append_equal_append_greater`).
-/

namespace Scan

/-! ### Loops that filter -/

section Filter

variable {α : Type} {l : List α} {p : α → Bool}

/-- A beginning on which a condition lasts is all there is of it, if the condition is
never regained. -/
theorem takeWhile_eq_filter (h : l.Pairwise fun a b => p b → p a) :
    l.takeWhile p = l.filter p := by
  induction h with
  | nil => rfl
  | @cons a l ha _ ih =>
    by_cases hp : p a
    · rw [List.takeWhile_cons_of_pos hp, List.filter_cons_of_pos hp, ih]
    · have hnone : l.filter p = [] :=
        List.filter_eq_nil_iff.mpr fun b hb hpb => hp (ha b hb hpb)
      rw [List.takeWhile_cons_of_neg hp, List.filter_cons_of_neg hp, hnone]

/-- What is left after that beginning is what the condition fails of. -/
theorem dropWhile_eq_filter (h : l.Pairwise fun a b => p b → p a) :
    l.dropWhile p = l.filter fun a => !p a := by
  induction h with
  | nil => rfl
  | @cons a l ha _ ih =>
    by_cases hp : p a
    · rw [List.dropWhile_cons_of_pos hp, List.filter_cons_of_neg (by simp [hp]), ih]
    · have hall : (a :: l).filter (fun b => !p b) = a :: l := by
        refine List.filter_eq_self.mpr fun b hb => ?_
        rcases List.mem_cons.mp hb with rfl | hb
        · simp [hp]
        · have hpb : ¬p b := fun hpb => hp (ha b hb hpb)
          simp [hpb]
      rw [List.dropWhile_cons_of_neg hp, hall]

end Filter

/-! ### Iterators -/

section Iterators

variable {κ ν : Type} [LinearOrder κ] {l : List (κ × ν)} {p : κ} {x : κ × ν}

/-- The entries of a map, in the order of their keys. -/
def Sorted (l : List (κ × ν)) : Prop := l.Pairwise fun x y => x.1 < y.1

/-- What `Next` walks from the first entry that is not before `p`. -/
def seek (p : κ) (l : List (κ × ν)) : List (κ × ν) := l.dropWhile fun x => x.1 < p

/-- What `Prev` walks from the last entry that is not after `p`. -/
def seekForPrev (p : κ) (l : List (κ × ν)) : List (κ × ν) :=
  (l.takeWhile fun x => x.1 ≤ p).reverse

/-- The entries before `p`. -/
def below (p : κ) (l : List (κ × ν)) : List (κ × ν) := l.takeWhile fun x => x.1 < p

theorem below_append_seek : below p l ++ seek p l = l := List.takeWhile_append_dropWhile

theorem mem_below (hl : Sorted l) : x ∈ below p l ↔ x ∈ l ∧ x.1 < p := by
  rw [below, takeWhile_eq_filter, List.mem_filter, decide_eq_true_iff]
  exact hl.imp fun hxy hy => by simpa using hxy.trans (by simpa using hy)

theorem mem_seek (hl : Sorted l) : x ∈ seek p l ↔ x ∈ l ∧ p ≤ x.1 := by
  rw [seek, dropWhile_eq_filter, List.mem_filter]
  · simp
  · exact hl.imp fun hxy hy => by simpa using hxy.trans (by simpa using hy)

theorem sorted_seek (hl : Sorted l) : Sorted (seek p l) := hl.sublist (List.dropWhile_sublist _)

/-- What holds along the entries holds of two of them in the order of their keys. -/
theorem Sorted.rel_of_lt {R : κ × ν → κ × ν → Prop} {y : κ × ν} (hl : Sorted l) (hR : l.Pairwise R)
    (hx : x ∈ l) (hy : y ∈ l) (hxy : x.1 < y.1) : R x y := by
  obtain ⟨i, hi, rfl⟩ := List.mem_iff_getElem.mp hx
  obtain ⟨j, hj, rfl⟩ := List.mem_iff_getElem.mp hy
  rcases lt_trichotomy i j with hij | rfl | hji
  · exact List.pairwise_iff_getElem.mp hR i j hi hj hij
  · exact absurd hxy (lt_irrefl _)
  · exact absurd (List.pairwise_iff_getElem.mp hl j i hj hi hji) (not_lt.mpr hxy.le)

end Iterators

/-! ### The extensions of a string -/

section Extensions

variable {ν : Type} {l : List (Bytes × ν)} {p : Bytes} {x : Bytes × ν}

/-- The entries whose keys begin with `p`, from `p` on. -/
def equal (p : Bytes) (l : List (Bytes × ν)) : List (Bytes × ν) :=
  (seek p l).takeWhile fun x => p.isPrefixOf x.1

/-- The entries from `p` on, without those whose keys begin with `p`. -/
def greater (p : Bytes) (l : List (Bytes × ν)) : List (Bytes × ν) :=
  (seek p l).dropWhile fun x => p.isPrefixOf x.1

/-- The entries from `p` on downwards, but for a first one whose key begins with `p`. -/
def lesser (p : Bytes) (l : List (Bytes × ν)) : List (Bytes × ν) :=
  match seekForPrev p l with
  | [] => []
  | x :: rest => if p.isPrefixOf x.1 then rest else x :: rest

/-- From `p` on, keys that begin with `p` come first. -/
theorem pairwise_seek (hl : Sorted l) :
    (seek p l).Pairwise fun x y => p.isPrefixOf y.1 → p.isPrefixOf x.1 := by
  refine List.Pairwise.imp_of_mem ?_ (sorted_seek (p := p) hl)
  intro x y hx _ hxy hy
  rw [List.isPrefixOf_iff_prefix] at hy ⊢
  exact Bytes.prefix_of_between ((mem_seek hl).mp hx).2 hxy.le hy

theorem mem_equal (hl : Sorted l) : x ∈ equal p l ↔ x ∈ l ∧ p <+: x.1 := by
  rw [equal, takeWhile_eq_filter (pairwise_seek hl), List.mem_filter, mem_seek hl,
    List.isPrefixOf_iff_prefix, and_assoc]
  exact and_congr_right fun _ => and_iff_right_of_imp Bytes.le_of_isPrefix

theorem mem_greater (hl : Sorted l) : x ∈ greater p l ↔ x ∈ l ∧ p ≤ x.1 ∧ ¬p <+: x.1 := by
  rw [greater, dropWhile_eq_filter (pairwise_seek hl), List.mem_filter, mem_seek hl, and_assoc,
    Bool.not_eq_true', ← Bool.not_eq_true, List.isPrefixOf_iff_prefix]

/-- The correction after `seekForPrev` leaves exactly what is before `p`. -/
theorem lesser_eq (hl : Sorted l) : lesser p l = (below p l).reverse := by
  have hbelow : ∀ x ∈ below p l, x.1 < p := fun x hx => ((mem_below hl).mp hx).2
  have hle : l.takeWhile (fun x => x.1 ≤ p) =
      below p l ++ (seek p l).takeWhile fun x => x.1 ≤ p := by
    conv_lhs => rw [← below_append_seek (p := p) (l := l)]
    exact List.takeWhile_append_of_pos fun x hx => by simpa using (hbelow x hx).le
  have hkeep : (match (below p l).reverse with
      | [] => []
      | x :: rest => if p.isPrefixOf x.1 then rest else x :: rest) = (below p l).reverse := by
    rcases hrev : (below p l).reverse with _ | ⟨x, rest⟩
    · rfl
    · have hx : x ∈ below p l := List.mem_reverse.mp (hrev ▸ List.mem_cons_self)
      refine if_neg fun hp => ?_
      exact absurd (Bytes.le_of_isPrefix (List.isPrefixOf_iff_prefix.mp hp)) (not_le.mpr (hbelow x hx))
  rw [lesser, seekForPrev, hle]
  rcases hseek : seek p l with _ | ⟨y, s⟩
  · simpa using hkeep
  · have hy : p ≤ y.1 := ((mem_seek hl).mp (hseek ▸ List.mem_cons_self)).2
    rcases hy.eq_or_lt with heq | hlt
    · -- the entry at `p` itself is the one that is dropped
      have hs : s.takeWhile (fun x => x.1 ≤ p) = [] := by
        have hsorted := sorted_seek (p := p) hl
        rw [hseek] at hsorted
        rcases s with _ | ⟨z, s⟩
        · rfl
        · have hz : y.1 < z.1 := List.rel_of_pairwise_cons hsorted List.mem_cons_self
          exact List.takeWhile_cons_of_neg (by simpa [heq] using hz)
      rw [List.takeWhile_cons_of_pos (by simp [heq]), hs, List.reverse_append]
      simp [← heq]
    · rw [List.takeWhile_cons_of_neg (by simpa using hlt), List.append_nil]
      exact hkeep

theorem mem_lesser (hl : Sorted l) : x ∈ lesser p l ↔ x ∈ l ∧ x.1 < p := by
  rw [lesser_eq hl, List.mem_reverse, mem_below hl]

theorem Sorted.nodup (hl : Sorted l) : l.Nodup :=
  hl.imp fun h heq => absurd (heq ▸ h) (lt_irrefl _)

theorem nodup_seek (hl : Sorted l) : (seek p l).Nodup := (sorted_seek hl).nodup

theorem nodup_equal (hl : Sorted l) : (equal p l).Nodup :=
  (nodup_seek hl).sublist (List.takeWhile_sublist _)

theorem nodup_greater (hl : Sorted l) : (greater p l).Nodup :=
  (nodup_seek hl).sublist (List.dropWhile_sublist _)

theorem nodup_lesser (hl : Sorted l) : (lesser p l).Nodup := by
  have hbelow : (below p l).Nodup := hl.nodup.sublist (List.takeWhile_sublist _)
  rwa [lesser_eq hl, List.nodup_reverse]

/-- **Three scans cut the entries in three.** -/
theorem reverse_lesser_append_equal_append_greater (hl : Sorted l) :
    (lesser p l).reverse ++ equal p l ++ greater p l = l := by
  rw [lesser_eq hl, List.reverse_reverse, List.append_assoc, equal, greater,
    List.takeWhile_append_dropWhile, below_append_seek]

end Extensions

end Scan
