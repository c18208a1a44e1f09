import Mathlib.Data.List.Nodup
import Mathlib.Logic.Function.Basic

/-!
# Lists of updates, and how far a list got

A store is a function from places to values, and an update changes the value of one
place. A list of updates that is carried out one after the other can stop anywhere, and
the question is when that shows. For a list that updates no place twice the answer is
one update at a time:

* what was carried out does not show exactly when each update of it changes nothing
  (`Batch.apply_eq_self_iff`);
* what is missing does not show exactly when each update that is missing would change
  nothing (`Batch.apply_append_eq_iff`).

In both, an update is judged on the store there was at the beginning: the updates are
of different places, so none sees what another did.
-/

namespace Batch

variable {κ ν : Type} [DecidableEq κ]

/-- An update of one place. -/
structure Update (κ ν : Type) where
  /-- The place. -/
  place : κ
  /-- What becomes of its value. -/
  change : ν → ν

/-- **The store after a list of updates.** -/
def apply (s : κ → ν) (us : List (Update κ ν)) : κ → ν :=
  us.foldl (fun s u => Function.update s u.place (u.change (s u.place))) s

/-- The update changes nothing in the store. -/
def Idle (s : κ → ν) (u : Update κ ν) : Prop := u.change (s u.place) = s u.place

/-- No place is updated twice. -/
def Distinct (us : List (Update κ ν)) : Prop := (us.map Update.place).Nodup

variable {s : κ → ν} {u : Update κ ν} {us vs : List (Update κ ν)} {p : κ}

@[simp] theorem apply_nil : apply s [] = s := rfl

@[simp] theorem apply_cons :
    apply s (u :: us) = apply (Function.update s u.place (u.change (s u.place))) us := rfl

theorem apply_append : apply s (us ++ vs) = apply (apply s us) vs := List.foldl_append ..

/-- A place no update is of keeps its value. -/
theorem apply_of_not_mem (h : p ∉ us.map Update.place) : apply s us p = s p := by
  induction us generalizing s with
  | nil => rfl
  | cons u us ih =>
    rw [List.map_cons, List.mem_cons, not_or] at h
    rw [apply_cons, ih h.2, Function.update_of_ne h.1]

/-- **A place is changed by its own update and no other.** -/
theorem apply_of_mem (hd : Distinct us) (hu : u ∈ us) :
    apply s us u.place = u.change (s u.place) := by
  induction us generalizing s with
  | nil => exact absurd hu List.not_mem_nil
  | cons u' us ih =>
    obtain ⟨hnot, hd'⟩ := List.nodup_cons.mp hd
    rw [apply_cons]
    rcases List.mem_cons.mp hu with rfl | hmem
    · rw [apply_of_not_mem hnot, Function.update_self]
    · have hne : u.place ≠ u'.place := fun heq =>
        hnot (heq ▸ List.mem_map_of_mem hmem)
      rw [ih hd' hmem, Function.update_of_ne hne]

/-- What was carried out does not show exactly when each update of it changes
nothing. -/
theorem apply_eq_self_iff (hd : Distinct us) : apply s us = s ↔ ∀ u ∈ us, Idle s u := by
  constructor
  · intro h u hu
    rw [Idle, ← apply_of_mem hd hu, h]
  · intro h
    funext p
    by_cases hp : p ∈ us.map Update.place
    · obtain ⟨u, hu, rfl⟩ := List.mem_map.mp hp
      rw [apply_of_mem hd hu, h u hu]
    · exact apply_of_not_mem hp

/-- What is missing does not show exactly when each update that is missing would change
nothing. -/
theorem apply_append_eq_iff (hd : Distinct (us ++ vs)) :
    apply s us = apply s (us ++ vs) ↔ ∀ v ∈ vs, Idle s v := by
  rw [Distinct, List.map_append] at hd
  have hparts := List.nodup_append.mp hd
  have hkeep : ∀ v ∈ vs, apply s us v.place = s v.place := fun v hv =>
    apply_of_not_mem fun hmem => hparts.2.2 _ hmem _ (List.mem_map_of_mem hv) rfl
  rw [apply_append, eq_comm, apply_eq_self_iff hparts.2.1]
  refine forall₂_congr fun v hv => ?_
  rw [Idle, Idle, hkeep v hv]

end Batch
