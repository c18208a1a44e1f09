import Mathlib.Data.Stream.Defs

/-!
# Programs over calls

A program that works on a store does two things: it computes, and it *calls*. This
file separates them. An `Effect.Prog` is the tree of everything a program may do:
it returns, it raises, or it makes a call and goes on with the reply. What a call
does to the store is not part of the program; it is a `Effect.Handler`, and
`Effect.Prog.run` is the program's run against one.

The separation is what the results of a development are stated on:

* a property of **what a program may call** holds whatever the replies are
  (`Effect.Prog.Uses`), and gives its frame: what no call of the program touches, no run
  of it changes, however it ends (`Effect.Prog.run_of_uses`);
* a property of **what a run calls** may depend on the state a call is made in
  (`Effect.Prog.Avoids`);
* a property of **what a program may return** holds of what any run returns
  (`Effect.Prog.Returns`), and one of **what it may raise** of what any run raises
  (`Effect.Prog.Raises`);
* a handler may **stop** the run at a call, so a crash between two calls is a run
  like any other (`Effect.Outcome.stopped`);
* the run of a sequence is the run of its first part and then of the rest
  (`Effect.Prog.run_bind`), which is the one rule the loops are unfolded with.
-/

namespace Effect

/-- How a run ends. -/
inductive Outcome (ε α : Type) where
  /-- The program returned. -/
  | ret (a : α) : Outcome ε α
  /-- The program raised. -/
  | raise (e : ε) : Outcome ε α
  /-- The handler stopped the run at a call. -/
  | stopped : Outcome ε α
  deriving DecidableEq

/-- How a run ends, with a function of the value where it returned one. -/
def Outcome.map {ε α β : Type} (f : α → β) : Outcome ε α → Outcome ε β
  | .ret a => .ret (f a)
  | .raise e => .raise e
  | .stopped => .stopped

/-- A computation that calls nothing ends by returning or by raising. -/
def Outcome.ofExcept {ε α : Type} : Except ε α → Outcome ε α
  | .ok a => .ret a
  | .error e => .raise e

/-- **A program over calls**: it returns, it raises, or it makes a call and goes on
with the reply. -/
inductive Prog (Call : Type) (Reply : Call → Type) (ε α : Type) where
  /-- Return a value. -/
  | ret (a : α) : Prog Call Reply ε α
  /-- Raise an error. -/
  | raise (e : ε) : Prog Call Reply ε α
  /-- Make a call, and go on with the reply. -/
  | call (c : Call) (k : Reply c → Prog Call Reply ε α) : Prog Call Reply ε α

/-- **What a call does**: the reply and the state it leaves, or nothing when the run
stops there. -/
abbrev Handler (Call : Type) (Reply : Call → Type) (σ : Type) : Type :=
  (c : Call) → σ → Option (Reply c × σ)

namespace Prog

variable {Call : Type} {Reply : Call → Type} {ε α β σ : Type}

/-- Sequencing. -/
protected def bind (p : Prog Call Reply ε α) (f : α → Prog Call Reply ε β) :
    Prog Call Reply ε β :=
  match p with
  | .ret a => f a
  | .raise e => .raise e
  | .call c k => .call c fun r => (k r).bind f

instance : Monad (Prog Call Reply ε) where
  pure := .ret
  bind := Prog.bind

protected theorem bind_assoc {γ : Type} (p : Prog Call Reply ε α) (f : α → Prog Call Reply ε β)
    (g : β → Prog Call Reply ε γ) :
    (p.bind f).bind g = p.bind fun a => (f a).bind g := by
  induction p with
  | ret a => rfl
  | raise e => rfl
  | call c k ih =>
    simp only [Prog.bind]
    congr 1
    funext r
    exact ih r

protected theorem bind_ret (p : Prog Call Reply ε α) : p.bind .ret = p := by
  induction p with
  | ret a => rfl
  | raise e => rfl
  | call c k ih =>
    simp only [Prog.bind]
    congr 1
    funext r
    exact ih r

instance : LawfulMonad (Prog Call Reply ε) :=
  LawfulMonad.mk' _ Prog.bind_ret (fun _ _ => rfl) Prog.bind_assoc

/-- A single call, returning its reply. -/
def perform (c : Call) : Prog Call Reply ε (Reply c) := .call c .ret

/-- A computation that calls nothing. -/
def ofExcept : Except ε α → Prog Call Reply ε α
  | .ok a => .ret a
  | .error e => .raise e

/-- Run the handler where the program raises. -/
def tryCatch (p : Prog Call Reply ε α) (f : ε → Prog Call Reply ε α) : Prog Call Reply ε α :=
  match p with
  | .ret a => .ret a
  | .raise e => f e
  | .call c k => .call c fun r => (k r).tryCatch f

/-- **The run of a program** against a handler: how it ends, and the state it leaves. -/
def run (h : Handler Call Reply σ) : Prog Call Reply ε α → σ → Outcome ε α × σ
  | .ret a, s => (.ret a, s)
  | .raise e, s => (.raise e, s)
  | .call c k, s => match h c s with
    | none => (.stopped, s)
    | some (r, s') => (k r).run h s'

/-! ### Runs of sequences -/

variable {h : Handler Call Reply σ}

@[simp] theorem run_pure (a : α) (s : σ) :
    (pure a : Prog Call Reply ε α).run h s = (.ret a, s) := rfl

@[simp] theorem run_ret (a : α) (s : σ) :
    (.ret a : Prog Call Reply ε α).run h s = (.ret a, s) := rfl

@[simp] theorem run_raise (e : ε) (s : σ) :
    (.raise e : Prog Call Reply ε α).run h s = (.raise e, s) := rfl

/-- **The run of a sequence** is the run of its first part and then of the rest. -/
theorem run_bind (p : Prog Call Reply ε α) (f : α → Prog Call Reply ε β) (s : σ) :
    (p >>= f).run h s = match p.run h s with
      | (.ret a, s') => (f a).run h s'
      | (.raise e, s') => (.raise e, s')
      | (.stopped, s') => (.stopped, s') := by
  change (p.bind f).run h s = _
  induction p generalizing s with
  | ret a => rfl
  | raise e => rfl
  | call c k ih =>
    simp only [Prog.bind, run]
    cases h c s with
    | none => rfl
    | some r => exact ih r.1 r.2

theorem run_map (f : α → β) (p : Prog Call Reply ε α) (s : σ) :
    (f <$> p).run h s = ((p.run h s).1.map f, (p.run h s).2) := by
  rw [map_eq_pure_bind, run_bind]
  rcases p.run h s with ⟨_ | _ | _, s'⟩ <;> rfl

/-- The run of a call followed by the rest. -/
theorem run_perform_bind (c : Call) (f : Reply c → Prog Call Reply ε β) (s : σ) :
    (perform c >>= f).run h s = match h c s with
      | none => (.stopped, s)
      | some (r, s') => (f r).run h s' := by
  change (Prog.call c f).run h s = _
  rw [run]

/-- The run of a computation that calls nothing, followed by the rest. -/
theorem run_ofExcept_bind (x : Except ε α) (f : α → Prog Call Reply ε β) (s : σ) :
    (ofExcept x >>= f).run h s = match x with
      | .ok a => (f a).run h s
      | .error e => (.raise e, s) := by
  cases x <;> rfl

theorem run_tryCatch (p : Prog Call Reply ε α) (f : ε → Prog Call Reply ε α) (s : σ) :
    (p.tryCatch f).run h s = match p.run h s with
      | (.ret a, s') => (.ret a, s')
      | (.raise e, s') => (f e).run h s'
      | (.stopped, s') => (.stopped, s') := by
  induction p generalizing s with
  | ret a => rfl
  | raise e => rfl
  | call c k ih =>
    simp only [tryCatch, run]
    cases h c s with
    | none => rfl
    | some r => exact ih r.1 r.2

/-! ### What a program may call -/

/-- **Every call the program may make satisfies `P`**, whatever the replies are. -/
def Uses (P : Call → Prop) : Prog Call Reply ε α → Prop
  | .ret _ => True
  | .raise _ => True
  | .call c k => P c ∧ ∀ r, (k r).Uses P

variable {P : Call → Prop}

@[simp] theorem uses_pure (a : α) : (pure a : Prog Call Reply ε α).Uses P := trivial

@[simp] theorem uses_raise (e : ε) : (.raise e : Prog Call Reply ε α).Uses P := trivial

@[simp] theorem uses_perform {c : Call} : (perform c : Prog Call Reply ε _).Uses P ↔ P c :=
  ⟨fun hp => hp.1, fun hp => ⟨hp, fun _ => trivial⟩⟩

@[simp] theorem uses_ofExcept (x : Except ε α) :
    (ofExcept x : Prog Call Reply ε α).Uses P := by
  cases x <;> trivial

theorem uses_of_forall (h : ∀ c, P c) (p : Prog Call Reply ε α) : p.Uses P := by
  induction p with
  | ret a => trivial
  | raise e => trivial
  | call c k ih => exact ⟨h c, ih⟩

theorem Uses.mono {Q : Call → Prop} {p : Prog Call Reply ε α} (hp : p.Uses P)
    (hPQ : ∀ c, P c → Q c) : p.Uses Q := by
  induction p with
  | ret a => trivial
  | raise e => trivial
  | call c k ih => exact ⟨hPQ c hp.1, fun r => ih r (hp.2 r)⟩

theorem uses_map {f : α → β} {p : Prog Call Reply ε α} : (f <$> p).Uses P ↔ p.Uses P := by
  rw [map_eq_pure_bind]
  change (p.bind fun a => pure (f a)).Uses P ↔ _
  induction p with
  | ret a => exact Iff.rfl
  | raise e => exact Iff.rfl
  | call c k ih => exact and_congr_right fun _ => forall_congr' ih

theorem Uses.bind {p : Prog Call Reply ε α} {f : α → Prog Call Reply ε β} (hp : p.Uses P)
    (hf : ∀ a, (f a).Uses P) : (p >>= f).Uses P := by
  change (p.bind f).Uses P
  induction p with
  | ret a => exact hf a
  | raise e => trivial
  | call c k ih => exact ⟨hp.1, fun r => ih r (hp.2 r)⟩

theorem Uses.tryCatch {p : Prog Call Reply ε α} {f : ε → Prog Call Reply ε α} (hp : p.Uses P)
    (hf : ∀ e, (f e).Uses P) : (p.tryCatch f).Uses P := by
  induction p with
  | ret a => trivial
  | raise e => exact hf e
  | call c k ih => exact ⟨hp.1, fun r => ih r (hp.2 r)⟩

/-- **The frame of a program**: a reflexive and transitive relation that every call it
may make keeps is kept by every run of it, however the run ends. -/
theorem run_of_uses {I : σ → σ → Prop} (hrefl : ∀ s, I s s)
    (htrans : ∀ {s t u}, I s t → I t u → I s u)
    (hcall : ∀ c s r s', P c → h c s = some (r, s') → I s s')
    {p : Prog Call Reply ε α} (hp : p.Uses P) (s : σ) : I s (p.run h s).2 := by
  induction p generalizing s with
  | ret a => exact hrefl s
  | raise e => exact hrefl s
  | call c k ih =>
    simp only [run]
    rcases hc : h c s with _ | ⟨r, s'⟩
    · exact hrefl s
    · exact htrans (hcall c s r s' hp.1 hc) (ih r (hp.2 r) s')

/-! ### What a program may return -/

/-- **Every value the program may return satisfies `Q`**, whatever the replies are. -/
def Returns (Q : α → Prop) : Prog Call Reply ε α → Prop
  | .ret a => Q a
  | .raise _ => True
  | .call _ k => ∀ r, (k r).Returns Q

variable {Q : α → Prop}

/-- A sequence returns what its second part returns for what its first part may. -/
theorem Returns.bind {p : Prog Call Reply ε α} {f : α → Prog Call Reply ε β} {R : β → Prop}
    (hp : p.Returns Q) (hf : ∀ a, Q a → (f a).Returns R) : (p >>= f).Returns R := by
  change (p.bind f).Returns R
  induction p with
  | ret a => exact hf a hp
  | raise e => trivial
  | call c k ih => exact fun r => ih r (hp r)

theorem returns_true (p : Prog Call Reply ε α) : p.Returns fun _ => True := by
  induction p with
  | ret a => trivial
  | raise e => trivial
  | call c k ih => exact ih

/-- What a run returns is something the program may return. -/
theorem Returns.of_run {p : Prog Call Reply ε α} (hp : p.Returns Q) {s s' : σ} {a : α}
    (hrun : p.run h s = (.ret a, s')) : Q a := by
  induction p generalizing s with
  | ret a' =>
    obtain ⟨ha, -⟩ := Prod.mk.inj hrun
    exact Outcome.ret.inj ha ▸ hp
  | raise e => cases (Prod.mk.inj hrun).1
  | call c k ih =>
    rw [run] at hrun
    rcases hc : h c s with _ | ⟨r, s₁⟩ <;> rw [hc] at hrun
    · cases (Prod.mk.inj hrun).1
    · exact ih r (hp r) hrun

/-! ### What a program may raise -/

/-- **Every error the program may raise satisfies `E`**, whatever the replies are. -/
def Raises (E : ε → Prop) : Prog Call Reply ε α → Prop
  | .ret _ => True
  | .raise e => E e
  | .call _ k => ∀ r, (k r).Raises E

variable {E : ε → Prop}

theorem raises_pure (a : α) : (pure a : Prog Call Reply ε α).Raises E := trivial

theorem raises_perform (c : Call) : (perform c : Prog Call Reply ε _).Raises E := fun _ => trivial

theorem raises_ofExcept {x : Except ε α} (h : ∀ e, x = .error e → E e) :
    (ofExcept x : Prog Call Reply ε α).Raises E := by
  cases x with
  | ok a => trivial
  | error e => exact h e rfl

theorem Raises.bind {p : Prog Call Reply ε α} {f : α → Prog Call Reply ε β} (hp : p.Raises E)
    (hf : ∀ a, (f a).Raises E) : (p >>= f).Raises E := by
  change (p.bind f).Raises E
  induction p with
  | ret a => exact hf a
  | raise e => exact hp
  | call c k ih => exact fun r => ih r (hp r)

/-- What is caught is not raised; what the handler raises is. -/
theorem Raises.tryCatch {E' : ε → Prop} {p : Prog Call Reply ε α} {f : ε → Prog Call Reply ε α}
    (hp : p.Raises E) (hf : ∀ e, E e → (f e).Raises E') : (p.tryCatch f).Raises E' := by
  induction p with
  | ret a => trivial
  | raise e => exact hf e hp
  | call c k ih => exact fun r => ih r (hp r)

/-- What a run raises is something the program may raise. -/
theorem Raises.of_run {p : Prog Call Reply ε α} (hp : p.Raises E) {s s' : σ} {e : ε}
    (hrun : p.run h s = (.raise e, s')) : E e := by
  induction p generalizing s with
  | ret a => cases (Prod.mk.inj hrun).1
  | raise e' =>
    obtain ⟨he, -⟩ := Prod.mk.inj hrun
    exact Outcome.raise.inj he ▸ hp
  | call c k ih =>
    rw [run] at hrun
    rcases hc : h c s with _ | ⟨r, s₁⟩ <;> rw [hc] at hrun
    · cases (Prod.mk.inj hrun).1
    · exact ih r (hp r) hrun

/-! ### What a run does not call -/

/-- **The run makes no bad call**, none that is bad in the state it is made in. -/
def Avoids (h : Handler Call Reply σ) (bad : Call → σ → Prop) : Prog Call Reply ε α → σ → Prop
  | .ret _, _ => True
  | .raise _, _ => True
  | .call c k, s => ¬bad c s ∧ ∀ r s', h c s = some (r, s') → (k r).Avoids h bad s'

variable {bad : Call → σ → Prop}

@[simp] theorem avoids_pure (a : α) (s : σ) :
    (pure a : Prog Call Reply ε α).Avoids h bad s := trivial

@[simp] theorem avoids_raise (e : ε) (s : σ) :
    (raise e : Prog Call Reply ε α).Avoids h bad s := trivial

theorem avoids_ofExcept (x : Except ε α) (s : σ) :
    (ofExcept x : Prog Call Reply ε α).Avoids h bad s := by
  cases x <;> trivial

theorem avoids_perform {c : Call} {s : σ} :
    (perform c : Prog Call Reply ε _).Avoids h bad s ↔ ¬bad c s :=
  ⟨fun hp => hp.1, fun hp => ⟨hp, fun _ _ _ => trivial⟩⟩

/-- A sequence makes no bad call if its first part makes none, and the rest makes none where
the first part returns. -/
theorem avoids_bind {p : Prog Call Reply ε α} {f : α → Prog Call Reply ε β} {s : σ} :
    (p >>= f).Avoids h bad s ↔
      p.Avoids h bad s ∧ ∀ a s', p.run h s = (.ret a, s') → (f a).Avoids h bad s' := by
  change (p.bind f).Avoids h bad s ↔ _
  induction p generalizing s with
  | ret a => simp [Prog.bind, Avoids]
  | raise e => simp [Prog.bind, Avoids]
  | call c k ih =>
    simp only [Prog.bind, Avoids, run]
    constructor
    · rintro ⟨hc, hk⟩
      refine ⟨⟨hc, fun r s' hr => ((ih r).mp (hk r s' hr)).1⟩, fun a s' hrun => ?_⟩
      rcases hr : h c s with _ | ⟨r, s₁⟩
      · simp [hr] at hrun
      · rw [hr] at hrun
        exact ((ih r).mp (hk r s₁ hr)).2 a s' hrun
    · rintro ⟨⟨hc, hk⟩, hf⟩
      refine ⟨hc, fun r s' hr => (ih r).mpr ⟨hk r s' hr, fun a s'' hrun => hf a s'' ?_⟩⟩
      rwa [hr]

theorem avoids_map {p : Prog Call Reply ε α} {f : α → β} {s : σ} :
    (f <$> p).Avoids h bad s ↔ p.Avoids h bad s := by
  rw [map_eq_pure_bind, avoids_bind]
  exact and_iff_left fun a s' _ => avoids_pure (f a) s'

/-- **No bad call is made** where the calls a program may make are not bad under an invariant
they keep. -/
theorem Uses.avoids {I : σ → Prop} {p : Prog Call Reply ε α} (hp : p.Uses P)
    (hbad : ∀ c s, P c → I s → ¬bad c s)
    (hcall : ∀ c s r s', P c → I s → h c s = some (r, s') → I s') {s : σ} (hs : I s) :
    p.Avoids h bad s := by
  induction p generalizing s with
  | ret a => trivial
  | raise e => trivial
  | call c k ih =>
    exact ⟨hbad c s hp.1 hs, fun r s' hr => ih r (hp.2 r) (hcall c s r s' hp.1 hs hr)⟩

end Prog

end Effect
