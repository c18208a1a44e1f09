import Mathlib.Order.Basic
import Mathlib.Data.Nat.Init

/-!
# Loops that are left somewhere

A loop whose body decides by itself whether there is another turn: a turn goes from a state to the
state of the next turn, or leaves the loop with a result. `Loop.run` takes so many turns at most.

There are two rules. What an invariant says of the turns that leave holds of every result, whatever
number of turns it takes (`Loop.of_run`); and where each turn that does not leave makes a measure
smaller, the loop is left (`Loop.exists_run`). Where no turn leaves as long as the invariant holds,
there is no result (`Loop.run_eq_none`).
-/

namespace Loop

variable {State Result : Type} (turn : State → State ⊕ Result)

/-- **So many turns**: the result, if the loop is left by then. -/
def run : ℕ → State → Option Result
  | 0, _ => none
  | turns + 1, s =>
    match turn s with
    | .inl s' => run turns s'
    | .inr r => some r

variable {turn} {I : State → Prop} {Q : Result → Prop} {s : State}

/-- **The invariant rule.** -/
theorem of_run (hturn : ∀ s, I s → (∃ s', turn s = .inl s' ∧ I s') ∨ ∃ r, turn s = .inr r ∧ Q r)
    (hs : I s) {turns : ℕ} {r : Result} (h : run turn turns s = some r) : Q r := by
  induction turns generalizing s with
  | zero => cases h
  | succ turns ih =>
    rw [run] at h
    rcases hturn s hs with ⟨s', hgoes, hs'⟩ | ⟨r', hleaves, hr'⟩
    · rw [hgoes] at h
      exact ih hs' h
    · rw [hleaves] at h
      exact Option.some.inj h ▸ hr'

/-- **The rule for a measure**: it ends, and the result is as it should be. -/
theorem exists_run {measure : State → ℕ}
    (hturn : ∀ s, I s → (∃ s', turn s = .inl s' ∧ I s' ∧ measure s' < measure s) ∨
      ∃ r, turn s = .inr r ∧ Q r) (hs : I s) : ∃ turns r, run turn turns s = some r ∧ Q r := by
  induction hn : measure s using Nat.strong_induction_on generalizing s with
  | _ n ih =>
    rcases hturn s hs with ⟨s', hgoes, hs', hlt⟩ | ⟨r, hleaves, hr⟩
    · obtain ⟨turns, r, hrun, hr⟩ := ih (measure s') (hn ▸ hlt) hs' rfl
      refine ⟨turns + 1, r, ?_, hr⟩
      rw [run, hgoes]
      exact hrun
    · refine ⟨1, r, ?_, hr⟩
      rw [run, hleaves]

/-- Where no turn leaves, nothing comes out. -/
theorem run_eq_none (hturn : ∀ s, I s → ∃ s', turn s = .inl s' ∧ I s') (hs : I s) (turns : ℕ) :
    run turn turns s = none := by
  rcases hrun : run turn turns s with _ | r
  · rfl
  · exact (of_run (Q := fun _ => False) (fun s hs => Or.inl (hturn s hs)) hs hrun).elim

end Loop
