import AnuDB.Lib.History
import AnuDB.Lib.Prog
import Mathlib.Data.Fintype.EquivFin
import Mathlib.Data.Setoid.Basic

/-!
# Programs under way together

Several programs work on one state, and each call is atomic: a step is that one of them
makes its next call. An `Effect.Pool` is the state together with what each program has
still to do and what it has been told so far, and a run is a history of such steps
(`History.Run`), in any order.

Two rules are proved here.

* What a program returns can be told from its calls and their replies
  (`Effect.Prog.Told`), whatever the others do in between (`Effect.Pool.told`).
* **Isolation gives a serial order** (`Effect.Pool.serialisable`). Let the state have
  places, of which a call reads some and writes some, and let every program write at its
  last call only. If no call writes a place that another program has read and not yet
  ended, then the programs that have ended have the outcomes they have alone, one after
  the other in the order they ended, and the places are as they are then.

The second one is an invariant: as nothing a program has read has changed since, it might
as well start now, and be told what it has been told (`Effect.Pool.Replays`).
-/

namespace Effect

variable {Call : Type} {Reply : Call → Type} {ε α β σ ι : Type}

namespace Prog

/-! ### Ended programs -/

/-- The program makes no call any more. -/
def Done : Prog Call Reply ε α → Prop
  | .call _ _ => False
  | _ => True

instance : DecidablePred (Done : Prog Call Reply ε α → Prop)
  | .ret _ => .isTrue trivial
  | .raise _ => .isTrue trivial
  | .call _ _ => .isFalse id

/-- How a program has ended, where it has. -/
def ending : Prog Call Reply ε α → Outcome ε α
  | .ret a => .ret a
  | .raise e => .raise e
  | .call _ _ => .stopped

theorem exists_call_of_not_done {p : Prog Call Reply ε α} (h : ¬p.Done) :
    ∃ c k, p = .call c k := by
  cases p with
  | ret a => exact absurd trivial h
  | raise e => exact absurd trivial h
  | call c k => exact ⟨c, k, rfl⟩

/-! ### What a program has been told -/

/-- **A program that has been told so much** makes calls, and returns a value, that fit what it
will have been told by then. -/
def Told (A : List ((c : Call) × Reply c) → Call → Prop)
    (Q : List ((c : Call) × Reply c) → α → Prop) :
    Prog Call Reply ε α → List ((c : Call) × Reply c) → Prop
  | .ret a, told => Q told a
  | .raise _, _ => True
  | .call c k, told => A told c ∧ ∀ r, (k r).Told A Q (told ++ [⟨c, r⟩])

section Told

variable {A : List ((c : Call) × Reply c) → Call → Prop}
  {Q : List ((c : Call) × Reply c) → α → Prop} {told : List ((c : Call) × Reply c)}

theorem told_pure {a : α} (h : Q told a) : (pure a : Prog Call Reply ε α).Told A Q told := h

theorem told_perform {c : Call} {R : List ((c : Call) × Reply c) → Reply c → Prop}
    (h : A told c) (hR : ∀ r, R (told ++ [⟨c, r⟩]) r) :
    (perform c : Prog Call Reply ε _).Told A R told := ⟨h, hR⟩

theorem Told.mono {p : Prog Call Reply ε α} {R : List ((c : Call) × Reply c) → α → Prop}
    (h : p.Told A Q told) (hQR : ∀ told' a, told <+: told' → Q told' a → R told' a) :
    p.Told A R told := by
  induction p generalizing told with
  | ret a => exact hQR told a List.prefix_rfl h
  | raise e => trivial
  | call c k ih =>
    refine ⟨h.1, fun r => ih r (h.2 r) fun told' a hlonger => ?_⟩
    exact hQR told' a ((List.prefix_append told _).trans hlonger)

theorem Told.weaken {B : List ((c : Call) × Reply c) → Call → Prop} {p : Prog Call Reply ε α}
    (h : p.Told A Q told) (hAB : ∀ told c, A told c → B told c) : p.Told B Q told := by
  induction p generalizing told with
  | ret a => exact h
  | raise e => trivial
  | call c k ih => exact ⟨hAB told c h.1, fun r => ih r (h.2 r)⟩

/-- A program goes on with what it has been told in its first part. -/
theorem Told.bind {p : Prog Call Reply ε α} {f : α → Prog Call Reply ε β}
    {R : List ((c : Call) × Reply c) → β → Prop} (h : p.Told A Q told)
    (hf : ∀ told' a, told <+: told' → Q told' a → (f a).Told A R told') :
    (p >>= f).Told A R told := by
  change (p.bind f).Told A R told
  induction p generalizing told with
  | ret a => exact hf told a List.prefix_rfl h
  | raise e => trivial
  | call c k ih =>
    refine ⟨h.1, fun r => ih r (h.2 r) fun told' a hlonger => ?_⟩
    exact hf told' a ((List.prefix_append told _).trans hlonger)

theorem Told.tryCatch {p : Prog Call Reply ε α} {f : ε → Prog Call Reply ε α}
    (h : p.Told A Q told) (hf : ∀ told e, (f e).Told A Q told) : (p.tryCatch f).Told A Q told := by
  induction p generalizing told with
  | ret a => exact h
  | raise e => exact hf told e
  | call c k ih => exact ⟨h.1, fun r => ih r (h.2 r)⟩

end Told

/-! ### Programs that write at their last call -/

/-- **Every call of the program satisfies `Q`**, but for the last one, which may satisfy `W`
instead. -/
def Commits (Q W : Call → Prop) : Prog Call Reply ε α → Prop
  | .call c k => (Q c ∧ ∀ r, (k r).Commits Q W) ∨ (W c ∧ ∀ r, (k r).Done)
  | _ => True

variable {P W : Call → Prop}

theorem commits_perform {c : Call} (h : W c) :
    (perform c : Prog Call Reply ε _).Commits P W := Or.inr ⟨h, fun _ => trivial⟩

theorem Uses.bind_commits {p : Prog Call Reply ε α} {f : α → Prog Call Reply ε β}
    (h : p.Uses P) (hf : ∀ a, (f a).Commits P W) : (p >>= f).Commits P W := by
  change (p.bind f).Commits P W
  induction p with
  | ret a => exact hf a
  | raise e => trivial
  | call c k ih => exact Or.inl ⟨h.1, fun r => ih r (h.2 r)⟩

theorem Commits.mono {Q : Call → Prop} {p : Prog Call Reply ε α} (h : p.Commits P W)
    (hPQ : ∀ c, P c → Q c) : p.Commits Q W := by
  induction p with
  | ret a => trivial
  | raise e => trivial
  | call c k ih => exact h.imp (fun h => ⟨hPQ c h.1, fun r => ih r (h.2 r)⟩) id

/-- What makes no call may follow. -/
theorem Commits.bind {p : Prog Call Reply ε α} {f : α → Prog Call Reply ε β} (h : p.Commits P W)
    (hf : ∀ a, (f a).Done) : (p >>= f).Commits P W := by
  change (p.bind f).Commits P W
  have hdone {q : Prog Call Reply ε β} (hq : q.Done) : q.Commits P W := by
    cases q with
    | ret b => trivial
    | raise e => trivial
    | call c k => exact absurd hq id
  induction p with
  | ret a => exact hdone (hf a)
  | raise e => trivial
  | call c k ih =>
    rcases h with ⟨hc, hk⟩ | ⟨hc, hk⟩
    · exact Or.inl ⟨hc, fun r => ih r (hk r)⟩
    · refine Or.inr ⟨hc, fun r => ?_⟩
      show ((k r).bind f).Done
      have hr := hk r
      cases hkr : k r with
      | ret a => exact hf a
      | raise e => trivial
      | call c' k' =>
        rw [hkr] at hr
        exact absurd hr id

/-- **A run that is stopped** has not come to the last call. -/
theorem Commits.run_stopped {h : Handler Call Reply σ} {I : σ → σ → Prop} (hrefl : ∀ s, I s s)
    (htrans : ∀ {s t u}, I s t → I t u → I s u)
    (hcall : ∀ c s r s', P c → h c s = some (r, s') → I s s') {p : Prog Call Reply ε α}
    (hp : p.Commits P W) {s s' : σ} (hrun : p.run h s = (.stopped, s')) : I s s' := by
  induction p generalizing s with
  | ret a => cases (Prod.mk.inj hrun).1
  | raise e => cases (Prod.mk.inj hrun).1
  | call c k ih =>
    rw [run] at hrun
    rcases hc : h c s with _ | ⟨r, s₁⟩ <;> rw [hc] at hrun
    · obtain ⟨-, rfl⟩ := Prod.mk.inj hrun
      exact hrefl s
    · rcases hp with ⟨hP, hk⟩ | ⟨-, hdone⟩
      · exact htrans (hcall c s r s₁ hP hc) (ih r (hk r) hrun)
      · -- nothing comes after the last call
        have hr := hdone r
        cases hkr : k r with
        | ret a =>
          simp only [hkr] at hrun
          cases (Prod.mk.inj hrun).1
        | raise e =>
          simp only [hkr] at hrun
          cases (Prod.mk.inj hrun).1
        | call c' k' =>
          rw [hkr] at hr
          exact absurd hr id

end Prog

/-! ### Alone on the state -/

section Alone

variable (does : (c : Call) → σ → Reply c → σ → Prop)

/-- **Where a program may get to**, with the state to itself: `does` says what the state may do
with a call. -/
inductive Leads (p : Prog Call Reply ε α) (s : σ) : Prog Call Reply ε α → σ → Prop
  | refl : Leads p s p s
  | snoc {c : Call} {k : Reply c → Prog Call Reply ε α} {r : Reply c} {t t' : σ}
      (h : Leads p s (.call c k) t) (hdoes : does c t r t') : Leads p s (k r) t'

/-- A program may end so, with the state to itself. -/
def Ends (p : Prog Call Reply ε α) (s : σ) (o : Outcome ε α) (t : σ) : Prop :=
  ∃ q, Leads does p s q t ∧ q.Done ∧ q.ending = o

/-- **Programs one after the other**, with their outcomes. -/
def Serial (progs : ι → Prog Call Reply ε α) (outcome : ι → Outcome ε α) (s : σ) (order : List ι)
    (t : σ) : Prop :=
  History.Run (fun t i t' => Ends does (progs i) t (outcome i) t') s order t

end Alone

/-! ### Pools -/

/-- **Programs under way together.** -/
structure Pool (ι Call : Type) (Reply : Call → Type) (ε α σ : Type) where
  /-- The state they work on. -/
  state : σ
  /-- What each has still to do. -/
  rest : ι → Prog Call Reply ε α
  /-- The calls each has made, with their replies. -/
  made : ι → List ((c : Call) × Reply c)

namespace Pool

/-- Programs before any of them has made a call. -/
def start (s : σ) (progs : ι → Prog Call Reply ε α) : Pool ι Call Reply ε α σ :=
  ⟨s, progs, fun _ => []⟩

variable [DecidableEq ι] {does : (c : Call) → σ → Reply c → σ → Prop}
  {p p' : Pool ι Call Reply ε α σ} {i j : ι}

/-- What a program makes of a reply. -/
def advance (p : Pool ι Call Reply ε α σ) (i : ι) (x : (c : Call) × Reply c) (s : σ)
    (q : Prog Call Reply ε α) : Pool ι Call Reply ε α σ :=
  ⟨s, Function.update p.rest i q, Function.update p.made i (p.made i ++ [x])⟩

/-- **A step**: one of them makes its next call. -/
inductive Step (does : (c : Call) → σ → Reply c → σ → Prop) (p : Pool ι Call Reply ε α σ) :
    ι × ((c : Call) × Reply c) → Pool ι Call Reply ε α σ → Prop
  | call {i : ι} {c : Call} {k : Reply c → Prog Call Reply ε α} {r : Reply c} {s : σ}
      (hrest : p.rest i = .call c k) (hdoes : does c p.state r s) :
      Step does p (i, ⟨c, r⟩) (p.advance i ⟨c, r⟩ s (k r))

section Advance

variable {x : (c : Call) × Reply c} {s : σ} {q : Prog Call Reply ε α}

@[simp] theorem advance_state : (p.advance i x s q).state = s := rfl

@[simp] theorem advance_rest_self : (p.advance i x s q).rest i = q := Function.update_self ..

@[simp] theorem advance_made_self : (p.advance i x s q).made i = p.made i ++ [x] :=
  Function.update_self ..

theorem advance_rest_of_ne (h : j ≠ i) : (p.advance i x s q).rest j = p.rest j :=
  Function.update_of_ne h ..

theorem advance_made_of_ne (h : j ≠ i) : (p.advance i x s q).made j = p.made j :=
  Function.update_of_ne h ..

theorem mem_advance_made {y : (c : Call) × Reply c} :
    y ∈ (p.advance i x s q).made j ↔ y ∈ p.made j ∨ j = i ∧ y = x := by
  by_cases hij : j = i
  · subst hij
    simp
  · rw [advance_made_of_ne hij, or_iff_left fun h => hij h.1]

end Advance

/-! ### What programs return -/

variable {progs : ι → Prog Call Reply ε α} {s : σ} {history : List (ι × ((c : Call) × Reply c))}

/-- **Whatever the others do**, a program makes calls and returns what fits what it has been
told. -/
theorem told {A : List ((c : Call) × Reply c) → Call → Prop}
    {Q : List ((c : Call) × Reply c) → α → Prop}
    (h : History.Run (Step does) (start s progs) history p) (i : ι) (hi : (progs i).Told A Q []) :
    (p.rest i).Told A Q (p.made i) := by
  refine h.invariant (I := fun p => (p.rest i).Told A Q (p.made i)) hi ?_
  rintro p ⟨j, c, r⟩ _ hp ⟨hrest, hdoes⟩
  by_cases hij : i = j
  · subst hij
    rw [hrest] at hp
    rw [advance_rest_self, advance_made_self]
    exact hp.2 r
  · rwa [advance_rest_of_ne hij, advance_made_of_ne hij]

/-! ### Isolation -/

section Isolation

variable {L : Type} {same : L → Setoid σ} {reads writes : Call → Set L} {P : Call → Prop}

/-- **The places of a state that calls read and write**: what a call does not write it leaves
the same, and where what it reads is the same it may be answered the same, and leaves the same
what was the same. -/
structure Footprint (does : (c : Call) → σ → Reply c → σ → Prop) (same : L → Setoid σ)
    (reads writes : Call → Set L) (P : Call → Prop) : Prop where
  /-- What is not written stays the same. -/
  frame : ∀ {c s r s'}, P c → does c s r s' → ∀ l, l ∉ writes c → (same l).r s s'
  /-- The same is read, replied and left. -/
  replay : ∀ {c s r s' t}, P c → does c s r s' → (∀ l ∈ reads c, (same l).r s t) →
    ∃ t', does c t r t' ∧ ∀ l, (same l).r s t → (same l).r s' t'

/-- **No call writes what another program has read**, while that one has calls to come. -/
def Undisturbed (reads writes : Call → Set L) (p : Pool ι Call Reply ε α σ)
    (label : ι × ((c : Call) × Reply c)) : Prop :=
  ∀ j ≠ label.1, ¬(p.rest j).Done → ∀ x ∈ p.made j, ∀ l ∈ reads x.1, l ∉ writes label.2.1

/-- **A program might as well start now**: in every state that is the same where it has read, it
may get to where it is without writing. -/
def Replays (does : (c : Call) → σ → Reply c → σ → Prop) (same : L → Setoid σ)
    (reads : Call → Set L) (q : Prog Call Reply ε α) (p : Pool ι Call Reply ε α σ) (i : ι) : Prop :=
  ∀ t, (∀ x ∈ p.made i, ∀ l ∈ reads x.1, (same l).r p.state t) →
    ∃ t', (∀ l, (same l).r t t') ∧ Leads does q t (p.rest i) t'

/-- **The programs that have ended are serialisable.** -/
def Serialises (does : (c : Call) → σ → Reply c → σ → Prop) (same : L → Setoid σ)
    (progs : ι → Prog Call Reply ε α) (s : σ) (p : Pool ι Call Reply ε α σ) : Prop :=
  ∃ order t, order.Nodup ∧ (∀ i, i ∈ order ↔ (p.rest i).Done) ∧
    Serial does progs (fun i => (p.rest i).ending) s order t ∧ ∀ l, (same l).r p.state t

variable (hfoot : Footprint does same reads writes P)
include hfoot

/-- A step of another program that writes nothing this one has read. -/
theorem Replays.of_other {c : Call} {r : Reply c} {s' : σ} {q rest : Prog Call Reply ε α}
    (h : Replays does same reads q p j) (hc : P c) (hdoes : does c p.state r s') (hij : j ≠ i)
    (hdisjoint : ∀ x ∈ p.made j, ∀ l ∈ reads x.1, l ∉ writes c) :
    Replays does same reads q (p.advance i ⟨c, r⟩ s' rest) j := by
  intro t ht
  rw [advance_made_of_ne hij, advance_state] at ht
  rw [advance_rest_of_ne hij]
  refine h t fun x hx l hl => (same l).trans' ?_ (ht x hx l hl)
  exact hfoot.frame hc hdoes l (hdisjoint x hx l hl)

omit [DecidableEq ι] in
/-- A step of the program itself, in a state where it might as well have started: it is told
the same, and leaves the same what was the same. -/
theorem Replays.step {c : Call} {k : Reply c → Prog Call Reply ε α} {r : Reply c} {s' t : σ}
    {q : Prog Call Reply ε α} (h : Replays does same reads q p i) (hc : P c)
    (hrest : p.rest i = .call c k) (hdoes : does c p.state r s')
    (hmade : ∀ x ∈ p.made i, ∀ l ∈ reads x.1, (same l).r p.state t)
    (hreads : ∀ l ∈ reads c, (same l).r p.state t) :
    ∃ t', (∀ l, l ∉ writes c → (same l).r t t') ∧
      (∀ l, (same l).r p.state t → (same l).r s' t') ∧ Leads does q t (k r) t' := by
  obtain ⟨t₁, hsame, hleads⟩ := h t hmade
  obtain ⟨t₂, hdoes', hleft⟩ := hfoot.replay hc hdoes
    fun l hl => (same l).trans' (hreads l hl) (hsame l)
  rw [hrest] at hleads
  exact ⟨t₂, fun l hl => (same l).trans' (hsame l) (hfoot.frame hc hdoes' l hl),
    fun l hl => hleft l ((same l).trans' hl (hsame l)), hleads.snoc hdoes'⟩

omit [DecidableEq ι] hfoot in
/-- Programs that have ended are serialisable before anything happens. -/
theorem serialises_start [Finite ι] (s : σ) (progs : ι → Prog Call Reply ε α) :
    Serialises does same progs s (start s progs) := by
  have := Fintype.ofFinite ι
  have hserial (order : List ι) (horder : ∀ i ∈ order, (progs i).Done) :
      Serial does progs (fun i => (progs i).ending) s order s := by
    induction order using List.reverseRecOn with
    | nil => exact .nil
    | append_singleton order i ih =>
      refine (ih fun j hj => horder j (List.mem_append_left _ hj)).snoc ?_
      exact ⟨progs i, .refl, horder i (by simp), rfl⟩
  refine ⟨(Finset.univ.filter fun i => (progs i).Done).toList, s, Finset.nodup_toList _,
    fun i => ?_, hserial _ fun i hi => ?_, fun l => (same l).refl' s⟩
  · rw [Finset.mem_toList, Finset.mem_filter]
    exact and_iff_right (Finset.mem_univ i)
  · rw [Finset.mem_toList, Finset.mem_filter] at hi
    exact hi.2

omit hfoot in
/-- A step after which the program has more to do keeps the order. -/
theorem Serialises.of_not_done {s' : σ} {x : (c : Call) × Reply c} {q : Prog Call Reply ε α}
    (h : Serialises does same progs s p) (hi : ¬(p.rest i).Done) (hq : ¬q.Done)
    (hsame : ∀ l, (same l).r p.state s') : Serialises does same progs s (p.advance i x s' q) := by
  obtain ⟨order, t, hnodup, hmem, hserial, ht⟩ := h
  have hrest (j : ι) (hj : j ∈ order) : (p.advance i x s' q).rest j = p.rest j := by
    refine advance_rest_of_ne ?_
    rintro rfl
    exact hi ((hmem j).mp hj)
  refine ⟨order, t, hnodup, fun j => ?_, hserial.mono_of_mem fun j hj s₁ s₂ hends => ?_,
    fun l => (same l).trans' ((same l).symm' (hsame l)) (ht l)⟩
  · by_cases hij : j = i
    · subst hij
      rw [advance_rest_self]
      exact iff_of_false (fun hj => hi ((hmem j).mp hj)) hq
    · rw [advance_rest_of_ne hij, hmem j]
  · show Ends does (progs j) s₁ ((p.advance i x s' q).rest j).ending s₂
    rwa [hrest j hj]

/-- **A program that ends goes to the end of the order.** -/
theorem Serialises.of_done {c : Call} {k : Reply c → Prog Call Reply ε α} {r : Reply c} {s' : σ}
    (h : Serialises does same progs s p) (hreplays : Replays does same reads (progs i) p i)
    (hc : P c) (hrest : p.rest i = .call c k) (hdoes : does c p.state r s') (hdone : (k r).Done) :
    Serialises does same progs s (p.advance i ⟨c, r⟩ s' (k r)) := by
  obtain ⟨order, t, hnodup, hmem, hserial, ht⟩ := h
  have hi : i ∉ order := by
    rw [hmem i, hrest]
    exact id
  have hne (j : ι) (hj : j ∈ order) : j ≠ i := fun hij => hi (hij ▸ hj)
  obtain ⟨t', -, hleft, hleads⟩ :=
    hreplays.step hfoot hc hrest hdoes (fun _ _ l _ => ht l) fun l _ => ht l
  have hbefore : Serial does progs (fun j => ((p.advance i ⟨c, r⟩ s' (k r)).rest j).ending) s
      order t := by
    refine hserial.mono_of_mem fun j hj s₁ s₂ hends => ?_
    show Ends does (progs j) s₁ ((p.advance i ⟨c, r⟩ s' (k r)).rest j).ending s₂
    rwa [advance_rest_of_ne (hne j hj)]
  have hending : (k r).ending = ((p.advance i ⟨c, r⟩ s' (k r)).rest i).ending := by
    rw [advance_rest_self]
  refine ⟨order ++ [i], t', ?_, fun j => ?_,
    hbefore.snoc ⟨k r, hleads, hdone, hending⟩,
    fun l => hleft l (ht l)⟩
  · rw [List.nodup_append]
    refine ⟨hnodup, List.nodup_singleton i, fun j hj j' hj' => ?_⟩
    rw [List.mem_singleton.mp hj']
    exact hne j hj
  · rw [List.mem_append, List.mem_singleton]
    by_cases hij : j = i
    · subst hij
      rw [advance_rest_self]
      exact iff_of_true (Or.inr rfl) hdone
    · rw [advance_rest_of_ne hij, hmem j, or_iff_left hij]

/-- **Isolation gives a serial order**: if programs write at their last calls only, and no call
writes what another program has read while that one has calls to come, then the programs that
have ended, in every state reached, are serialisable. -/
theorem serialisable [Finite ι]
    (hcommits : ∀ i, (progs i).Commits (fun c => P c ∧ writes c = ∅) P)
    (h : History.Run (History.Meeting (Undisturbed reads writes) (Step does)) (start s progs)
      history p) : Serialises does same progs s p := by
  suffices hinvariant : Serialises does same progs s p ∧ ∀ i, ¬(p.rest i).Done →
      (p.rest i).Commits (fun c => P c ∧ writes c = ∅) P ∧
        Replays does same reads (progs i) p i from hinvariant.1
  refine h.invariant (I := fun p => Serialises does same progs s p ∧ ∀ i, ¬(p.rest i).Done →
      (p.rest i).Commits (fun c => P c ∧ writes c = ∅) P ∧
        Replays does same reads (progs i) p i) ?_ ?_
  · exact ⟨serialises_start s progs, fun i _ =>
      ⟨hcommits i, fun t _ => ⟨t, fun l => (same l).refl' t, .refl⟩⟩⟩
  · rintro p ⟨i, c, r⟩ _ ⟨hserialises, hunended⟩ ⟨hundisturbed, ⟨hrest, hdoes⟩⟩
    rename_i s' k
    have hi : ¬(p.rest i).Done := by rw [hrest]; exact id
    obtain ⟨hcommit, hreplays⟩ := hunended i hi
    rw [hrest] at hcommit
    have hc : P c := hcommit.elim (fun h => h.1.1) And.left
    -- the other programs have read nothing that is written now
    have hothers (j : ι) (hij : j ≠ i) (hj : ¬(p.rest j).Done) :
        (p.rest j).Commits (fun c => P c ∧ writes c = ∅) P ∧
          Replays does same reads (progs j) (p.advance i ⟨c, r⟩ s' (k r)) j :=
      ⟨(hunended j hj).1, (hunended j hj).2.of_other hfoot hc hdoes hij (hundisturbed j hij hj)⟩
    by_cases hdone : (k r).Done
    · refine ⟨hserialises.of_done hfoot hreplays hc hrest hdoes hdone, fun j hj => ?_⟩
      by_cases hij : j = i
      · subst hij
        rw [advance_rest_self] at hj
        exact absurd hdone hj
      · rw [advance_rest_of_ne hij] at hj ⊢
        exact hothers j hij hj
    · -- the program has calls to come, so this one writes nothing
      obtain ⟨⟨-, hnone⟩, hk⟩ := hcommit.resolve_right fun h => hdone (h.2 r)
      have hsame (l : L) : (same l).r p.state s' :=
        hfoot.frame hc hdoes l (by rw [hnone]; exact Set.notMem_empty l)
      refine ⟨hserialises.of_not_done hi hdone hsame, fun j hj => ?_⟩
      by_cases hij : j = i
      · subst hij
        rw [advance_rest_self]
        refine ⟨hk r, fun t ht => ?_⟩
        rw [advance_made_self, advance_state] at ht
        rw [advance_rest_self]
        have hbefore (x : (c : Call) × Reply c) (hx : x ∈ p.made j ++ [⟨c, r⟩]) (l : L)
            (hl : l ∈ reads x.1) : (same l).r p.state t :=
          (same l).trans' (hsame l) (ht x hx l hl)
        obtain ⟨t', hunwritten, -, hleads⟩ := hreplays.step hfoot hc hrest hdoes
          (fun x hx => hbefore x (List.mem_append_left _ hx))
          (hbefore ⟨c, r⟩ (List.mem_append_right _ (List.mem_singleton.mpr rfl)))
        exact ⟨t', fun l => hunwritten l (by rw [hnone]; exact Set.notMem_empty l), hleads⟩
      · rw [advance_rest_of_ne hij] at hj ⊢
        exact hothers j hij hj

end Isolation

/-! ### Schedules -/

section Schedules

variable {answer : (c : Call) → σ → Reply c × σ}

/-- The pool after one of the programs has made its next call, with the state answering. -/
def turn (answer : (c : Call) → σ → Reply c × σ) (p : Pool ι Call Reply ε α σ) (i : ι) :
    Pool ι Call Reply ε α σ :=
  match p.rest i with
  | .call c k => p.advance i ⟨c, (answer c p.state).1⟩ (answer c p.state).2 (k (answer c p.state).1)
  | _ => p

theorem step_turn (hanswer : ∀ c s, does c s (answer c s).1 (answer c s).2) {c : Call}
    {k : Reply c → Prog Call Reply ε α} (h : p.rest i = .call c k) :
    Step does p (i, ⟨c, (answer c p.state).1⟩) (p.turn answer i) := by
  rw [turn, h]
  exact .call h (hanswer c p.state)

/-- Whether the turns of a schedule are all allowed. -/
def allows (answer : (c : Call) → σ → Reply c × σ) (allowed : Pool ι Call Reply ε α σ → ι → Bool) :
    List ι → Pool ι Call Reply ε α σ → Bool
  | [], _ => true
  | i :: schedule, p => allowed p i && allows answer allowed schedule (p.turn answer i)

/-- **A schedule whose turns are allowed is a run.** -/
theorem run_of_allows {allowed : Pool ι Call Reply ε α σ → ι → Bool}
    {Step' : Pool ι Call Reply ε α σ → ι × ((c : Call) × Reply c) → Pool ι Call Reply ε α σ → Prop}
    (hstep : ∀ p i, allowed p i = true → ∃ label, Step' p label (p.turn answer i))
    {schedule : List ι} (h : allows answer allowed schedule p = true) :
    ∃ history, History.Run Step' p history (schedule.foldl (turn answer) p) := by
  induction schedule generalizing p with
  | nil => exact ⟨[], .nil⟩
  | cons i schedule ih =>
    obtain ⟨hi, hrest⟩ := Bool.and_eq_true_iff.mp h
    obtain ⟨label, hlabel⟩ := hstep p i hi
    obtain ⟨history, hrun⟩ := ih hrest
    exact ⟨[label] ++ history, (History.Run.nil.snoc hlabel).append hrun⟩

end Schedules

end Pool

end Effect
