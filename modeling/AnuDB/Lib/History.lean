import Mathlib.Logic.Basic

/-!
# Histories of labelled steps

A system that is called and answers: a step goes from a state to a state under a label,
the call together with what came of it. A run has a history, the list of its labels.

The one rule here is the simulation rule. If a relation between abstract and concrete
states holds at first, and every concrete step keeps it when the abstract state is moved
by what the label says, then it holds after every history
(`History.Run.simulates`). An invariant is the case where there is nothing abstract
(`History.Run.invariant`).

What only some steps keep is stated of the runs that take those steps only. When a
condition on a step tells exactly whether it keeps a property, a run stays in the property
exactly if all its steps meet the condition (`History.Run.into_iff_meeting`).
-/

namespace History

variable {State Label Abstract : Type}

/-- **The runs of a system** from a state, with their histories. -/
inductive Run (Step : State → Label → State → Prop) (start : State) : List Label → State → Prop
  | nil : Run Step start [] start
  | snoc {history : List Label} {s s' : State} {label : Label} (h : Run Step start history s)
      (hstep : Step s label s') : Run Step start (history ++ [label]) s'

variable {Step : State → Label → State → Prop} {start s : State} {history : List Label}

/-- **The simulation rule.** -/
theorem Run.simulates {R : Abstract → State → Prop} {next : Abstract → Label → Abstract}
    {a : Abstract} (hstart : R a start)
    (hstep : ∀ {a s label s'}, R a s → Step s label s' → R (next a label) s')
    (h : Run Step start history s) : R (history.foldl next a) s := by
  induction h with
  | nil => exact hstart
  | snoc _ hlast ih =>
    rw [List.foldl_append]
    exact hstep ih hlast

/-- **The invariant rule.** -/
theorem Run.invariant {I : State → Prop} (hstart : I start)
    (hstep : ∀ {s label s'}, I s → Step s label s' → I s')
    (h : Run Step start history s) : I s := by
  induction h with
  | nil => exact hstart
  | snoc _ hlast ih => exact hstep ih hlast

theorem Run.mono {Step' : State → Label → State → Prop} (h : Run Step start history s)
    (hmono : ∀ {s label s'}, Step s label s' → Step' s label s') : Run Step' start history s := by
  induction h with
  | nil => exact .nil
  | snoc _ hlast ih => exact ih.snoc (hmono hlast)

/-- Only the steps that are taken matter. -/
theorem Run.mono_of_mem {Step' : State → Label → State → Prop} (h : Run Step start history s)
    (hmono : ∀ label ∈ history, ∀ s s', Step s label s' → Step' s label s') :
    Run Step' start history s := by
  induction h with
  | nil => exact .nil
  | snoc _ hlast ih =>
    refine (ih fun label hlabel => ?_).snoc (hmono _ (by simp) _ _ hlast)
    exact hmono label (List.mem_append_left _ hlabel)

theorem Run.append {history' : List Label} {s' : State} (h : Run Step start history s)
    (h' : Run Step s history' s') : Run Step start (history ++ history') s' := by
  induction h' with
  | nil => rwa [List.append_nil]
  | snoc _ hlast ih =>
    rw [← List.append_assoc]
    exact ih.snoc hlast

/-! ### Runs of some steps only -/

/-- The steps that meet a condition on the state they are taken in. -/
def Meeting (condition : State → Label → Prop) (Step : State → Label → State → Prop) :
    State → Label → State → Prop :=
  fun s label s' => condition s label ∧ Step s label s'

/-- The steps into states with a property. -/
def Into (I : State → Prop) (Step : State → Label → State → Prop) : State → Label → State → Prop :=
  fun s label s' => Step s label s' ∧ I s'

theorem Run.of_meeting {condition : State → Label → Prop}
    (h : Run (Meeting condition Step) start history s) : Run Step start history s :=
  h.mono fun hstep => hstep.2

/-- The last state of a run that stays in a property has it. -/
theorem Run.of_into {I : State → Prop} (hstart : I start) (h : Run (Into I Step) start history s) :
    I s := by
  cases h with
  | nil => exact hstart
  | snoc _ hlast => exact hlast.2

theorem Run.of_into_run {I : State → Prop} (h : Run (Into I Step) start history s) :
    Run Step start history s :=
  h.mono fun hstep => hstep.1

/-- **A run stays in a property exactly if its steps meet the condition**, where the
condition tells whether a step out of the property stays in it. An invariant of all runs
may be used for that. -/
theorem Run.into_iff_meeting_of_invariant {I J : State → Prop}
    {condition : State → Label → Prop} (hstart : I start) (hinvariant : J start)
    (hkept : ∀ {s label s'}, J s → Step s label s' → J s')
    (hstep : ∀ {s label s'}, J s → I s → Step s label s' → (I s' ↔ condition s label)) :
    Run (Into I Step) start history s ↔ Run (Meeting condition Step) start history s := by
  have hJ {history : List Label} {s : State} (h : Run Step start history s) : J s :=
    h.invariant hinvariant hkept
  constructor
  · intro h
    induction h with
    | nil => exact .nil
    | snoc hrun hlast ih =>
      have hbefore := hJ hrun.of_into_run
      exact ih.snoc ⟨(hstep hbefore (hrun.of_into hstart) hlast.1).mp hlast.2, hlast.1⟩
  · intro h
    induction h with
    | nil => exact .nil
    | snoc hrun hlast ih =>
      have hbefore := hJ hrun.of_meeting
      exact ih.snoc ⟨hlast.2, (hstep hbefore (ih.of_into hstart) hlast.2).mpr hlast.1⟩

theorem Run.into_iff_meeting {I : State → Prop} {condition : State → Label → Prop}
    (hstart : I start)
    (hstep : ∀ {s label s'}, I s → Step s label s' → (I s' ↔ condition s label)) :
    Run (Into I Step) start history s ↔ Run (Meeting condition Step) start history s :=
  Run.into_iff_meeting_of_invariant (J := fun _ => True) hstart trivial (fun _ _ => trivial)
    fun _ => hstep

end History
