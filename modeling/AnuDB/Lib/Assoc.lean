import Mathlib.Order.Lattice
import Mathlib.Data.List.Basic

/-!
# Sorted association lists

The member list of a value that is itself part of its own members – a tree whose nodes
are maps from keys to trees – cannot be a map *type*: an inductive type may only nest
through a list. This file keeps such a list in key order. Setting a key is one pass
that replaces or inserts (`Assoc.set`), so its lookup lemmas hold of every list, sorted
or not, and no well-formedness has to be carried to use them.
-/

namespace Assoc

variable {κ ν : Type} [LinearOrder κ]

/-- Set a key, in key order, replacing the value it has. -/
def set (k : κ) (v : ν) : List (κ × ν) → List (κ × ν)
  | [] => [(k, v)]
  | (k', v') :: rest =>
    if k < k' then (k, v) :: (k', v') :: rest
    else if k = k' then (k, v) :: rest
    else (k', v') :: set k v rest

/-- What is there when a key has been set. -/
theorem mem_set {k : κ} {v : ν} {l : List (κ × ν)} {x : κ × ν} (hx : x ∈ set k v l) :
    x = (k, v) ∨ x ∈ l := by
  induction l with
  | nil => exact Or.inl (List.mem_singleton.mp hx)
  | cons e l ih =>
    rw [set] at hx
    split_ifs at hx with hlt heq
    · exact List.mem_cons.mp hx
    · exact (List.mem_cons.mp hx).imp_right (List.mem_cons_of_mem e)
    · rcases List.mem_cons.mp hx with rfl | hx
      · exact Or.inr List.mem_cons_self
      · exact (ih hx).imp_right (List.mem_cons_of_mem e)

/-- Remove a key. -/
def erase (k : κ) (l : List (κ × ν)) : List (κ × ν) := l.filter fun e => e.1 ≠ k

section Lookup

variable [BEq κ] [LawfulBEq κ] {k k' : κ}

@[simp] theorem lookup_set_self (k : κ) (v : ν) (l : List (κ × ν)) :
    (set k v l).lookup k = some v := by
  induction l with
  | nil => simp [set]
  | cons e l ih =>
    obtain ⟨k', v'⟩ := e
    rw [set]
    split_ifs with hlt heq
    · simp
    · simp
    · simp [List.lookup_cons, beq_eq_false_iff_ne.mpr heq, ih]

theorem lookup_set_of_ne (h : k' ≠ k) (v : ν) (l : List (κ × ν)) :
    (set k v l).lookup k' = l.lookup k' := by
  induction l with
  | nil => simp [set, List.lookup_cons, beq_eq_false_iff_ne.mpr h]
  | cons e l ih =>
    obtain ⟨k₁, v₁⟩ := e
    rw [set]
    split_ifs with hlt heq
    · simp [List.lookup_cons, beq_eq_false_iff_ne.mpr h]
    · simp [← heq, List.lookup_cons, beq_eq_false_iff_ne.mpr h]
    · rw [List.lookup_cons, List.lookup_cons, ih]

/-- What was there is still there, unless it was what the key had. -/
theorem mem_set_or_lookup {v : ν} {l : List (κ × ν)} {x : κ × ν} (hx : x ∈ l) :
    x ∈ set k v l ∨ x.1 = k ∧ l.lookup k = some x.2 := by
  induction l with
  | nil => cases hx
  | cons e l ih =>
    obtain ⟨k₁, v₁⟩ := e
    rw [set]
    split_ifs with hlt heq
    · exact Or.inl (List.mem_cons_of_mem _ hx)
    · rcases List.mem_cons.mp hx with rfl | hx
      · exact Or.inr ⟨heq.symm, by simp [heq]⟩
      · exact Or.inl (List.mem_cons_of_mem _ hx)
    · rcases List.mem_cons.mp hx with rfl | hx
      · exact Or.inl List.mem_cons_self
      · refine (ih hx).imp (List.mem_cons_of_mem _) fun ⟨hk, hlookup⟩ => ⟨hk, ?_⟩
        rw [List.lookup_cons, beq_eq_false_iff_ne.mpr heq]
        exact hlookup

/-- In key order, setting a key to the value it has changes nothing. -/
theorem set_of_lookup {v : ν} {l : List (κ × ν)} (hl : (l.map Prod.fst).Pairwise (· < ·))
    (h : l.lookup k = some v) : set k v l = l := by
  induction l with
  | nil => cases h
  | cons e l ih =>
    obtain ⟨k', v'⟩ := e
    obtain ⟨hlt, hl⟩ := List.pairwise_cons.mp hl
    rw [List.lookup_cons] at h
    rw [set]
    split at h
    · obtain rfl : k = k' := by simpa using ‹(k == k') = true›
      rw [if_neg (lt_irrefl k), if_pos rfl, Option.some.inj h]
    · have hne : k ≠ k' := by simpa using ‹(k == k') = false›
      -- what is found later is greater
      obtain ⟨before, after, rfl, -⟩ := List.lookup_eq_some_iff.mp h
      have hk : k' < k := hlt k (List.mem_map.mpr ⟨(k, v), by simp, rfl⟩)
      rw [if_neg (not_lt_of_gt hk), if_neg hne, ih hl h]

/-- A key that has been removed is not found. -/
@[simp] theorem lookup_erase_self (k : κ) (l : List (κ × ν)) : (erase k l).lookup k = none := by
  rw [List.lookup_eq_none_iff]
  intro e he
  have hne : e.1 ≠ k := of_decide_eq_true (List.mem_filter.mp he).2
  exact bne_iff_ne.mpr hne.symm

theorem lookup_erase_of_ne (h : k' ≠ k) (l : List (κ × ν)) :
    (erase k l).lookup k' = l.lookup k' := by
  induction l with
  | nil => rfl
  | cons e l ih =>
    obtain ⟨k₁, v₁⟩ := e
    rw [erase, List.filter_cons]
    split_ifs with hk
    · rw [List.lookup_cons, List.lookup_cons, ← ih, erase]
    · obtain rfl : k₁ = k := by simpa using hk
      rw [List.lookup_cons, beq_eq_false_iff_ne.mpr h]
      exact ih

/-- Removing a key that is not there changes nothing. -/
theorem erase_of_lookup_eq_none {l : List (κ × ν)} (h : l.lookup k = none) : erase k l = l := by
  refine List.filter_eq_self.mpr fun e he => decide_eq_true fun hk => ?_
  have hne : (k != e.1) = true := List.lookup_eq_none_iff.mp h e he
  exact bne_iff_ne.mp hne hk.symm

end Lookup

end Assoc
