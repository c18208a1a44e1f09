import AnuDB.Lib.Batch
import AnuDB.Lib.History
import Mathlib.Data.Set.Function

/-!
# Updates that are made again

A list of updates is tried, and tried again: each time it may stop anywhere, and it may be tried
once more when all of it has been made. That does no harm if making one of the updates twice is
making it once (`Batch.Repeatable`). Whatever the tries before have come to, once one of them has
made all the updates the store is as if they had been made at first, and it stays so
(`Batch.eqOn_of_tries`).

What carries the argument is that a place is always as it was or as the updates leave it
(`Batch.Between`). Only a set of places is looked at, so that others may work on the rest of the
store between the tries.
-/

namespace Batch

variable {κ ν : Type} [DecidableEq κ] {S : Set κ} {s t t' : κ → ν} {u : Update κ ν}
  {us vs : List (Update κ ν)} {p : κ}

/-- Making the update twice is making it once. -/
def Update.Repeatable (u : Update κ ν) : Prop := ∀ v, u.change (u.change v) = u.change v

/-- **Each place is as it was, or as the updates leave it.** -/
def Between (S : Set κ) (s : κ → ν) (us : List (Update κ ν)) (t : κ → ν) : Prop :=
  ∀ p ∈ S, t p = s p ∨ t p = apply s us p

theorem between_self : Between S s us s := fun _ _ => Or.inl rfl

theorem between_of_eqOn (h : Set.EqOn t (apply s us) S) : Between S s us t :=
  fun _ hp => Or.inr (h hp)

section Redo

variable (hd : Distinct us) (hr : ∀ u ∈ us, u.Repeatable)

include hd hr

/-- **An update that is made leaves its place as all of them do**, whether it has been made before
or not. -/
theorem Between.change (h : Between S s us t) (hu : u ∈ us) (hp : u.place ∈ S) :
    u.change (t u.place) = apply s us u.place := by
  have hall : apply s us u.place = u.change (s u.place) := apply_of_mem hd hu
  rcases h _ hp with hbefore | hafter
  · rw [hbefore, hall]
  · rw [hafter, hall, hr u hu]

/-- A place after some of the updates: it is as before, or as all of them leave it. -/
theorem Between.apply_sublist_cases (h : Between S s us t) (hvs : vs.Sublist us) (hp : p ∈ S) :
    apply t vs p = t p ∧ p ∉ vs.map Update.place ∨ apply t vs p = apply s us p := by
  by_cases hmem : p ∈ vs.map Update.place
  · obtain ⟨u, hu, rfl⟩ := List.mem_map.mp hmem
    have hdvs : Distinct vs := List.Nodup.sublist (hvs.map Update.place) hd
    rw [apply_of_mem hdvs hu]
    exact Or.inr (h.change hd hr (hvs.subset hu) hp)
  · exact Or.inl ⟨apply_of_not_mem hmem, hmem⟩

/-- Some of the updates are made. -/
theorem Between.apply_sublist (h : Between S s us t) (hvs : vs.Sublist us) :
    Between S s us (apply t vs) := by
  intro p hp
  rcases h.apply_sublist_cases hd hr hvs hp with ⟨hleft, -⟩ | hmade
  · rw [hleft]
    exact h p hp
  · exact Or.inr hmade

/-- **All of the updates are made**, and what was made of them before does not show. -/
theorem Between.apply_all (h : Between S s us t) : Set.EqOn (apply t us) (apply s us) S := by
  intro p hp
  rcases h.apply_sublist_cases hd hr (List.Sublist.refl us) hp with ⟨hleft, hmem⟩ | hmade
  · -- a place that no update is of is as it was
    have hsame : apply s us p = s p := apply_of_not_mem hmem
    rcases h p hp with hbefore | hafter
    · rw [hleft, hbefore, hsame]
    · rw [hleft, hafter]
  · exact hmade

/-- Some of the updates are made when all of them have been, and nothing changes. -/
theorem eqOn_apply_sublist (h : Set.EqOn t (apply s us) S) (hvs : vs.Sublist us) :
    Set.EqOn (apply t vs) (apply s us) S := by
  intro p hp
  rcases (between_of_eqOn h).apply_sublist_cases hd hr hvs hp with ⟨hleft, -⟩ | hmade
  · rw [hleft]
    exact h hp
  · exact hmade

end Redo

/-! ### Tries -/

/-- **A try**: some of the updates are made, and all of them if it is said to be done. What is not
looked at may change. -/
def Tries (S : Set κ) (us : List (Update κ ν)) (t : κ → ν) (done : Bool) (t' : κ → ν) : Prop :=
  ∃ vs, vs.Sublist us ∧ (done = true → vs = us) ∧ Set.EqOn t' (apply t vs) S

/-- Where nothing changes, nothing has been made. -/
theorem tries_of_eqOn (h : Set.EqOn t' t S) : Tries S us t false t' :=
  ⟨[], List.nil_sublist us, fun hdone => absurd hdone (by decide), h⟩

/-- **Tries until all is done come to what one that goes through comes to.** -/
theorem eqOn_of_tries (hd : Distinct us) (hr : ∀ u ∈ us, u.Repeatable) {history : List Bool}
    (h : History.Run (Tries S us) s history t) :
    Between S s us t ∧ (true ∈ history → Set.EqOn t (apply s us) S) := by
  induction h with
  | nil => exact ⟨between_self, fun hdone => absurd hdone List.not_mem_nil⟩
  | @snoc history t t' done _ hlast ih =>
    obtain ⟨hbetween, hdone⟩ := ih
    obtain ⟨vs, hvs, hall, hleft⟩ := hlast
    have hthen : true ∈ history ++ [done] → Set.EqOn t' (apply s us) S := by
      intro hmem
      rcases List.mem_append.mp hmem with hbefore | hnow
      · exact hleft.trans (eqOn_apply_sublist hd hr (hdone hbefore) hvs)
      · obtain rfl := hall (List.mem_singleton.mp hnow).symm
        exact hleft.trans (hbetween.apply_all hd hr)
    refine ⟨fun p hp => ?_, hthen⟩
    rw [hleft hp]
    exact hbetween.apply_sublist hd hr hvs p hp

end Batch
