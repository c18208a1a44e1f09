import AnuDB.Lib.Prog

/-!
# Actions on a state

An `Effect.Action` is what a program (`Effect.Prog`) is once it is run: a function of the
state, to how it ends and the state it leaves. Where a component has a state of its own beside
the store it calls, its code is written as actions, and the programs it calls are actions by
their runs.

A state that is left is left whether the action returns or raises, so what a handler of
errors finds is what was done so far (`Effect.Action.run_tryCatch`). Accordingly a specification,
`Effect.Action.Triple`, has one postcondition for what is returned and one for what is raised;
there is a rule for each way actions are put together, and an invariant is the case where all
three conditions are one (`Effect.Action.Keeps`). That the run is stopped is no way to meet a
specification.

What an action leaves alone is another matter, and may be said of all its runs
(`Effect.Action.Frames`).
-/

namespace Effect

/-- **An action on a state**: how it ends, and the state it leaves. -/
def Action (σ ε α : Type) : Type := σ → Outcome ε α × σ

namespace Action

variable {σ ε α β : Type}

/-- The run of an action. -/
def run (x : Action σ ε α) (s : σ) : Outcome ε α × σ := x s

/-- Sequencing. -/
protected def bind (x : Action σ ε α) (f : α → Action σ ε β) : Action σ ε β := fun s =>
  match x.run s with
  | (.ret a, s') => (f a).run s'
  | (.raise e, s') => (.raise e, s')
  | (.stopped, s') => (.stopped, s')

instance : Monad (Action σ ε) where
  pure a := fun s => (.ret a, s)
  bind := Action.bind

/-- Raise an error. -/
def raise (e : ε) : Action σ ε α := fun s => (.raise e, s)

/-- A computation that leaves the state alone. -/
def ofExcept : Except ε α → Action σ ε α
  | .ok a => pure a
  | .error e => raise e

/-- The state. -/
def get : Action σ ε σ := fun s => (.ret s, s)

/-- The state, changed. -/
def modify (f : σ → σ) : Action σ ε Unit := fun s => (.ret (), f s)

/-- Run the handler where the action raises. -/
def tryCatch (x : Action σ ε α) (f : ε → Action σ ε α) : Action σ ε α := fun s =>
  match x.run s with
  | (.ret a, s') => (.ret a, s')
  | (.raise e, s') => (f e).run s'
  | (.stopped, s') => (.stopped, s')

/-! ### Runs -/

@[simp] theorem run_pure (a : α) (s : σ) : (pure a : Action σ ε α).run s = (.ret a, s) := rfl

@[simp] theorem run_raise (e : ε) (s : σ) :
    (raise e : Action σ ε α).run s = (.raise e, s) := rfl

@[simp] theorem run_get (s : σ) : (get : Action σ ε σ).run s = (.ret s, s) := rfl

@[simp] theorem run_modify (f : σ → σ) (s : σ) :
    (modify f : Action σ ε Unit).run s = (.ret (), f s) := rfl

theorem run_bind (x : Action σ ε α) (f : α → Action σ ε β) (s : σ) :
    (x >>= f).run s = match x.run s with
      | (.ret a, s') => (f a).run s'
      | (.raise e, s') => (.raise e, s')
      | (.stopped, s') => (.stopped, s') := rfl

/-- The run of a sequence whose first part returns. -/
theorem run_bind_of_ret {x : Action σ ε α} {f : α → Action σ ε β} {s s' : σ} {a : α}
    (h : x.run s = (.ret a, s')) : (x >>= f).run s = (f a).run s' := by
  rw [run_bind, h]

/-- The run of a sequence whose first part raises. -/
theorem run_bind_of_raise {x : Action σ ε α} {f : α → Action σ ε β} {s s' : σ} {e : ε}
    (h : x.run s = (.raise e, s')) : (x >>= f).run s = (.raise e, s') := by
  rw [run_bind, h]

theorem run_ofExcept (x : Except ε α) (s : σ) :
    (ofExcept x : Action σ ε α).run s = (.ofExcept x, s) := by
  cases x <;> rfl

@[simp] theorem ofExcept_ok (a : α) : (ofExcept (.ok a) : Action σ ε α) = pure a := rfl

@[simp] theorem ofExcept_error (e : ε) : (ofExcept (.error e) : Action σ ε α) = raise e := rfl

@[simp] theorem pure_bind' (a : α) (f : α → Action σ ε β) :
    ((pure a : Action σ ε α) >>= f) = f a := rfl

@[simp] theorem raise_bind (e : ε) (f : α → Action σ ε β) :
    ((raise e : Action σ ε α) >>= f) = raise e := rfl

theorem run_tryCatch (x : Action σ ε α) (f : ε → Action σ ε α) (s : σ) :
    (x.tryCatch f).run s = match x.run s with
      | (.ret a, s') => (.ret a, s')
      | (.raise e, s') => (f e).run s'
      | (.stopped, s') => (.stopped, s') := rfl

/-! ### Specifications -/

/-- **A specification of an action**: from states of one kind it returns, leaving a state that
suits the value, or it raises, leaving a state that suits the error. -/
def Triple (P : σ → Prop) (x : Action σ ε α) (Q : α → σ → Prop) (E : ε → σ → Prop) : Prop :=
  ∀ s, P s → (∃ a s', x.run s = (.ret a, s') ∧ Q a s') ∨ ∃ e s', x.run s = (.raise e, s') ∧ E e s'

/-- An invariant of an action, however it ends. -/
abbrev Keeps (I : σ → Prop) (x : Action σ ε α) : Prop := x.Triple I (fun _ => I) fun _ => I

variable {P P' : σ → Prop} {Q Q' : α → σ → Prop} {R : β → σ → Prop} {E E' : ε → σ → Prop}

namespace Triple

protected theorem pure {a : α} (h : ∀ s, P s → Q a s) : (pure a : Action σ ε α).Triple P Q E :=
  fun s hs => Or.inl ⟨a, s, rfl, h s hs⟩

protected theorem raise {e : ε} (h : ∀ s, P s → E e s) : (raise e : Action σ ε α).Triple P Q E :=
  fun s hs => Or.inr ⟨e, s, rfl, h s hs⟩

protected theorem modify {f : σ → σ} {Q : Unit → σ → Prop} (h : ∀ s, P s → Q () (f s)) :
    (modify f : Action σ ε Unit).Triple P Q E :=
  fun s hs => Or.inl ⟨(), f s, rfl, h s hs⟩

protected theorem bind {x : Action σ ε α} {f : α → Action σ ε β} (hx : x.Triple P Q E)
    (hf : ∀ a, (f a).Triple (Q a) R E) : (x >>= f).Triple P R E := by
  intro s hs
  rcases hx s hs with ⟨a, s', hrun, hq⟩ | ⟨e, s', hrun, he⟩
  · rw [run_bind_of_ret hrun]
    exact hf a s' hq
  · rw [run_bind_of_raise hrun]
    exact Or.inr ⟨e, s', rfl, he⟩

/-- What is read is the state as it is. -/
theorem get_bind {f : σ → Action σ ε β} (h : ∀ s, P s → (f s).Triple (· = s) R E) :
    (get >>= f).Triple P R E :=
  fun s hs => h s hs s rfl

/-- A computation that leaves the state alone, and then the rest. -/
theorem ofExcept_bind {x : Except ε α} {f : α → Action σ ε β}
    (hok : ∀ a, x = .ok a → (f a).Triple P R E) (herror : ∀ e, x = .error e → ∀ s, P s → E e s) :
    (ofExcept x >>= f).Triple P R E := by
  cases x with
  | ok a => exact hok a rfl
  | error e => exact Triple.raise (herror e rfl)

protected theorem tryCatch {x : Action σ ε α} {f : ε → Action σ ε α} (hx : x.Triple P Q E)
    (hf : ∀ e, (f e).Triple (E e) Q E') : (x.tryCatch f).Triple P Q E' := by
  intro s hs
  rw [run_tryCatch]
  rcases hx s hs with ⟨a, s', hrun, hq⟩ | ⟨e, s', hrun, he⟩
  · rw [hrun]
    exact Or.inl ⟨a, s', rfl, hq⟩
  · rw [hrun]
    exact hf e s' he

/-- Less is asked for, and more is given. -/
theorem mono {x : Action σ ε α} (h : x.Triple P Q E) (hP : ∀ s, P' s → P s)
    (hQ : ∀ a s, Q a s → Q' a s) (hE : ∀ e s, E e s → E' e s) : x.Triple P' Q' E' := by
  intro s hs
  rcases h s (hP s hs) with ⟨a, s', hrun, hq⟩ | ⟨e, s', hrun, he⟩
  · exact Or.inl ⟨a, s', hrun, hQ a s' hq⟩
  · exact Or.inr ⟨e, s', hrun, hE e s' he⟩

theorem of_run {x : Action σ ε α} (h : x.Triple P Q E) {s s' : σ} (hs : P s) {a : α}
    (hrun : x.run s = (.ret a, s')) : Q a s' := by
  rcases h s hs with ⟨a', s'', hrun', hq⟩ | ⟨e, s'', hrun', -⟩
  · obtain ⟨ha, rfl⟩ := Prod.mk.inj (hrun.symm.trans hrun')
    exact Outcome.ret.inj ha ▸ hq
  · cases (Prod.mk.inj (hrun.symm.trans hrun')).1

end Triple

/-! ### Frames -/

/-- **What an action leaves alone**: the state it leaves is the same there, however it ends. -/
def Frames (same : Setoid σ) (x : Action σ ε α) : Prop := ∀ s, same.r s (x.run s).2

section Frames

variable {same : Setoid σ} {x : Action σ ε α} {f : α → Action σ ε β}

theorem frames_pure (a : α) : (pure a : Action σ ε α).Frames same := same.iseqv.refl

theorem frames_raise (e : ε) : (raise e : Action σ ε α).Frames same := same.iseqv.refl

theorem frames_get : (get : Action σ ε σ).Frames same := same.iseqv.refl

theorem frames_modify {f : σ → σ} (h : ∀ s, same.r s (f s)) :
    (modify f : Action σ ε Unit).Frames same := h

theorem frames_ofExcept (x : Except ε α) : (ofExcept x : Action σ ε α).Frames same := by
  cases x with
  | ok a => exact frames_pure a
  | error e => exact frames_raise e

/-- What follows leaves alone what the first part has left. -/
theorem frames_after (hf : ∀ a, (f a).Frames same) (s : σ) :
    same.r (x.run s).2 ((x >>= f).run s).2 := by
  rw [run_bind]
  rcases x.run s with ⟨a | e | _, s'⟩
  · exact hf a s'
  · exact same.iseqv.refl s'
  · exact same.iseqv.refl s'

theorem Frames.bind (hx : x.Frames same) (hf : ∀ a, (f a).Frames same) : (x >>= f).Frames same :=
  fun s => same.iseqv.trans (hx s) (frames_after hf s)

/-- A handler of errors leaves alone what was left when there was one. -/
theorem frames_caught {f : ε → Action σ ε α} (hf : ∀ e, (f e).Frames same) (s : σ) :
    same.r (x.run s).2 ((x.tryCatch f).run s).2 := by
  rw [run_tryCatch]
  rcases x.run s with ⟨a | e | _, s'⟩
  · exact same.iseqv.refl s'
  · exact hf e s'
  · exact same.iseqv.refl s'

end Frames

end Action

end Effect
