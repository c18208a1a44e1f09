import AnuDB.Lib.Interleave
import Mathlib.Data.Set.Basic

/-!
# Programs with places of their own

Programs that are under way together do not get into each other's way if each has places of its
own, which no other one reads or writes. Then it does not matter at all how their calls are
interleaved: in every state reached, each program is where it may get to alone, and made one after
the other, in whatever order, they leave the places as they are
(`Effect.Pool.Independent.serial`). Nothing is asked about where they write, and programs that have
not ended count as well.

Which places a program reads and writes may depend on what it is told. So what it keeps to is
asked for good replies only (`Effect.Prog.Given`), and goodness is what an invariant of the state
sees to.
-/

namespace Effect

variable {Call : Type} {Reply : Call → Type} {ε α β σ ι L : Type}

namespace Prog

/-- **As long as the replies are good**, every call of the program satisfies `Q`, and what it
returns satisfies `R`. -/
def Given (Good : (c : Call) → Reply c → Prop) (Q : Call → Prop) (R : α → Prop) :
    Prog Call Reply ε α → Prop
  | .ret a => R a
  | .raise _ => True
  | .call c k => Q c ∧ ∀ r, Good c r → (k r).Given Good Q R

section Given

variable {Good : (c : Call) → Reply c → Prop} {Q : Call → Prop} {R : α → Prop}

theorem given_perform {c : Call} {R : Reply c → Prop} (h : Q c) (hR : ∀ r, Good c r → R r) :
    (perform c : Prog Call Reply ε _).Given Good Q R := ⟨h, hR⟩

theorem given_ofExcept {x : Except ε α} (h : ∀ a, x = .ok a → R a) :
    (ofExcept x : Prog Call Reply ε α).Given Good Q R := by
  cases x with
  | ok a => exact h a rfl
  | error e => trivial

theorem Given.bind {p : Prog Call Reply ε α} {f : α → Prog Call Reply ε β} {S : β → Prop}
    (h : p.Given Good Q R) (hf : ∀ a, R a → (f a).Given Good Q S) : (p >>= f).Given Good Q S := by
  change (p.bind f).Given Good Q S
  induction p with
  | ret a => exact hf a h
  | raise e => trivial
  | call c k ih => exact ⟨h.1, fun r hr => ih r (h.2 r hr)⟩

theorem Given.mono {p : Prog Call Reply ε α} {Q' : Call → Prop} {R' : α → Prop}
    (h : p.Given Good Q R) (hQ : ∀ c, Q c → Q' c) (hR : ∀ a, R a → R' a) :
    p.Given Good Q' R' := by
  induction p with
  | ret a => exact hR a h
  | raise e => trivial
  | call c k ih => exact ⟨hQ c h.1, fun r hr => ih r (h.2 r hr)⟩

end Given

end Prog

namespace Pool

variable {does : (c : Call) → σ → Reply c → σ → Prop} {same : L → Setoid σ}
  {reads writes : Call → Set L} {P : Call → Prop} {Good : (c : Call) → Reply c → Prop}
  {I : σ → Prop} {owns : ι → Set L} {progs : ι → Prog Call Reply ε α}

/-! ### Programs that keep to some calls -/

/-- **Programs keep to their calls**: those they have made, and those they will make as long as the
replies are good; and the state sees to it that they are. -/
structure Kept (Good : (c : Call) → Reply c → Prop) (I : σ → Prop) (Q : ι → Call → Prop)
    (p : Pool ι Call Reply ε α σ) : Prop where
  /-- The state is as it should be. -/
  invariant : I p.state
  /-- What is still to do. -/
  rest : ∀ i, (p.rest i).Given Good (Q i) fun _ => True
  /-- What has been done. -/
  made : ∀ i, ∀ x ∈ p.made i, Q i x.1

section Kept

variable {Q : ι → Call → Prop} {s : σ} {p p' : Pool ι Call Reply ε α σ}
  (hgood : ∀ {i c s r s'}, Q i c → I s → does c s r s' → Good c r ∧ I s')

theorem kept_start (hs : I s) (hprogs : ∀ i, (progs i).Given Good (Q i) fun _ => True) :
    Kept Good I Q (start s progs) := ⟨hs, hprogs, fun _ _ hx => absurd hx List.not_mem_nil⟩

variable [DecidableEq ι]

/-- The call of a step is one of those its program keeps to. -/
theorem Kept.of_step (h : Kept Good I Q p) {label : ι × ((c : Call) × Reply c)}
    (hstep : Step does p label p') : Q label.1 label.2.1 := by
  cases hstep with
  | @call i c k r s' hrest hdoes =>
    have hi := h.rest i
    rw [hrest] at hi
    exact hi.1

include hgood in
theorem Kept.step (h : Kept Good I Q p) {label : ι × ((c : Call) × Reply c)}
    (hstep : Step does p label p') : Kept Good I Q p' := by
  have hcall := h.of_step hstep
  obtain ⟨hrest, hdoes⟩ := hstep
  rename_i i c k r s'
  obtain ⟨hr, hI⟩ := hgood hcall h.invariant hdoes
  have hi := h.rest i
  rw [hrest] at hi
  refine ⟨hI, fun j => ?_, fun j x hx => ?_⟩
  · by_cases hij : j = i
    · subst hij
      rw [advance_rest_self]
      exact hi.2 r hr
    · rw [advance_rest_of_ne hij]
      exact h.rest j
  · rcases mem_advance_made.mp hx with hx | ⟨rfl, rfl⟩
    · exact h.made j x hx
    · exact hcall

end Kept

/-! ### Programs that have nothing in common -/

/-- **A call keeps to the places of a program**: it reads none of the others', and writes only its
own. -/
structure KeepsTo (reads writes : Call → Set L) (owns : ι → Set L) (i : ι) (c : Call) : Prop where
  /-- It reads none of the others'. -/
  reads : ∀ l ∈ reads c, ∀ j ≠ i, l ∉ owns j
  /-- It writes only its own. -/
  writes : writes c ⊆ owns i

/-- **Independent programs**: each keeps to places of its own, as long as the replies are good;
and the state sees to it that they are. -/
structure Independent (does : (c : Call) → σ → Reply c → σ → Prop) (same : L → Setoid σ)
    (reads writes : Call → Set L) (P : Call → Prop) (Good : (c : Call) → Reply c → Prop)
    (I : σ → Prop) (owns : ι → Set L) (progs : ι → Prog Call Reply ε α) : Prop where
  /-- Calls read and write what they are said to. -/
  footprint : Footprint does same reads writes P
  /-- Replies are good. -/
  good : ∀ {c s r s'}, P c → I s → does c s r s' → Good c r ∧ I s'
  /-- No place belongs to two programs. -/
  disjoint : ∀ i j, i ≠ j → ∀ l ∈ owns i, l ∉ owns j
  /-- Programs keep to their places. -/
  keeps : ∀ i, (progs i).Given Good (fun c => P c ∧ KeepsTo reads writes owns i c) fun _ => True

/-- The place is no other program's: its own, or nobody's. -/
def Free (owns : ι → Set L) (i : ι) (l : L) : Prop := ∀ j ≠ i, l ∉ owns j

/-- **A program is where it may get to alone**: in every state that is as it was at first, but for
the places of others, it may get to where it is; and it leaves its own places as they are, and those
that are not its own as they were. -/
def Alone (does : (c : Call) → σ → Reply c → σ → Prop) (same : L → Setoid σ) (owns : ι → Set L)
    (progs : ι → Prog Call Reply ε α) (s : σ) (p : Pool ι Call Reply ε α σ) (i : ι) : Prop :=
  ∀ t, (∀ l, Free owns i l → (same l).r s t) →
    ∃ t', Leads does (progs i) t (p.rest i) t' ∧
      (∀ l, Free owns i l → (same l).r p.state t') ∧ ∀ l, l ∉ owns i → (same l).r t t'

namespace Independent

variable (h : Independent does same reads writes P Good I owns progs)
include h

/-- A place of one program is no other's. -/
theorem free_of_mem {i : ι} {l : L} (hl : l ∈ owns i) : Free owns i l :=
  fun j hj => h.disjoint i j hj.symm l hl

variable [DecidableEq ι] {s : σ} {p : Pool ι Call Reply ε α σ} {i j : ι}

/-- A step of another program. -/
theorem alone_of_other {c : Call} {r : Reply c} {s' : σ} {rest : Prog Call Reply ε α}
    (halone : Alone does same owns progs s p j) (hc : P c ∧ KeepsTo reads writes owns i c)
    (hdoes : does c p.state r s') (hij : j ≠ i) :
    Alone does same owns progs s (p.advance i ⟨c, r⟩ s' rest) j := by
  intro t ht
  obtain ⟨t', hleads, hown, hothers⟩ := halone t ht
  rw [advance_rest_of_ne hij, advance_state]
  refine ⟨t', hleads, fun l hl => ?_, hothers⟩
  have hframe := h.footprint.frame hc.1 hdoes l fun hw => hl i hij.symm (hc.2.writes hw)
  exact (same l).trans' ((same l).symm' hframe) (hown l hl)

/-- A step of the program itself. -/
theorem alone_step {c : Call} {k : Reply c → Prog Call Reply ε α} {r : Reply c} {s' : σ}
    (halone : Alone does same owns progs s p i) (hc : P c ∧ KeepsTo reads writes owns i c)
    (hrest : p.rest i = .call c k) (hdoes : does c p.state r s') :
    Alone does same owns progs s (p.advance i ⟨c, r⟩ s' (k r)) i := by
  intro t ht
  obtain ⟨t₁, hleads, hown, hothers⟩ := halone t ht
  obtain ⟨t₂, hdoes', hleft⟩ := h.footprint.replay hc.1 hdoes fun l hl =>
    hown l (hc.2.reads l hl)
  rw [hrest] at hleads
  rw [advance_rest_self, advance_state]
  refine ⟨t₂, hleads.snoc hdoes', fun l hl => hleft l (hown l hl), fun l hl => ?_⟩
  exact (same l).trans' (hothers l hl) (h.footprint.frame hc.1 hdoes' l fun hw => hl (hc.2.writes hw))

/-- **In every state reached, each program is where it may get to alone**, and what is nobody's is
as it was. -/
theorem alone {history : List (ι × ((c : Call) × Reply c))} (hstart : I s)
    (hrun : History.Run (Step does) (start s progs) history p) :
    (∀ i, Alone does same owns progs s p i) ∧ ∀ l, (∀ i, l ∉ owns i) → (same l).r s p.state := by
  have hgood {i : ι} {c : Call} {s s' : σ} {r : Reply c} (hc : P c ∧ KeepsTo reads writes owns i c)
      (hI : I s) (hdoes : does c s r s') : Good c r ∧ I s' := h.good hc.1 hI hdoes
  suffices hinvariant : Kept Good I (fun i c => P c ∧ KeepsTo reads writes owns i c) p ∧
      (∀ i, Alone does same owns progs s p i) ∧ ∀ l, (∀ i, l ∉ owns i) → (same l).r s p.state
    from hinvariant.2
  refine hrun.invariant (I := fun p => Kept Good I (fun i c => P c ∧ KeepsTo reads writes owns i c) p ∧
      (∀ i, Alone does same owns progs s p i) ∧ ∀ l, (∀ i, l ∉ owns i) → (same l).r s p.state) ?_ ?_
  · exact ⟨kept_start hstart h.keeps, fun i t ht => ⟨t, .refl, ht, fun l _ => (same l).refl' t⟩,
      fun l _ => (same l).refl' s⟩
  · intro p label p' hp hstep
    obtain ⟨hkept, halone, hcommon⟩ := hp
    have hcall := hkept.of_step hstep
    refine ⟨hkept.step hgood hstep, ?_⟩
    obtain ⟨hrest, hdoes⟩ := hstep
    rename_i i c k r s'
    refine ⟨fun j => ?_, fun l hl => ?_⟩
    · by_cases hij : j = i
      · subst hij
        exact h.alone_step (halone j) hcall hrest hdoes
      · exact h.alone_of_other (halone j) hcall hdoes hij
    · exact (same l).trans' (hcommon l hl)
        (h.footprint.frame hcall.1 hdoes l fun hw => hl i (hcall.2.writes hw))

/-- **Independent programs are serialisable in every order**: in every state reached, made one after
the other, each may get to where it is, and they leave the places as they are. -/
theorem serial {history : List (ι × ((c : Call) × Reply c))} (hstart : I s)
    (hrun : History.Run (Step does) (start s progs) history p) {order : List ι}
    (hnodup : order.Nodup) (hall : ∀ i, i ∈ order) :
    ∃ t, History.Run (fun t i t' => Leads does (progs i) t (p.rest i) t') s order t ∧
      ∀ l, (same l).r p.state t := by
  obtain ⟨halone, hcommon⟩ := h.alone hstart hrun
  suffices hsome : ∃ t, History.Run (fun t i t' => Leads does (progs i) t (p.rest i) t') s order t ∧
      (∀ l, ∀ i ∈ order, l ∈ owns i → (same l).r p.state t) ∧
      ∀ l, (∀ i ∈ order, l ∉ owns i) → (same l).r s t by
    obtain ⟨t, ht, howned, hothers⟩ := hsome
    refine ⟨t, ht, fun l => ?_⟩
    by_cases hl : ∃ i, l ∈ owns i
    · obtain ⟨i, hi⟩ := hl
      exact howned l i (hall i) hi
    · have hnone := not_exists.mp hl
      exact (same l).trans' ((same l).symm' (hcommon l hnone)) (hothers l fun i _ => hnone i)
  clear hall
  induction order using List.reverseRecOn with
  | nil => exact ⟨s, .nil, fun l i hi => absurd hi List.not_mem_nil, fun l _ => (same l).refl' s⟩
  | append_singleton order i ih =>
    have hi : i ∉ order := by
      intro hmem
      exact (List.nodup_append.mp hnodup).2.2 i hmem i (List.mem_singleton.mpr rfl) rfl
    obtain ⟨t, ht, howned, hothers⟩ := ih (List.nodup_append.mp hnodup).1
    -- the places of the program are as they were at first
    obtain ⟨t', hleads, hown, hleft⟩ := halone i t fun l hl =>
      hothers l fun j hj => hl j fun hji => hi (hji ▸ hj)
    refine ⟨t', ht.snoc hleads, fun l j hj hl => ?_, fun l hl => ?_⟩
    · by_cases hji : j = i
      · subst hji
        exact hown l (h.free_of_mem hl)
      · have hj' : j ∈ order := (List.mem_append.mp hj).resolve_right fun hj =>
          hji (List.mem_singleton.mp hj)
        exact (same l).trans' (howned l j hj' hl) (hleft l (h.free_of_mem hl i (Ne.symm hji)))
    · have hbefore : ∀ j ∈ order, l ∉ owns j := fun j hj => hl j (List.mem_append_left _ hj)
      exact (same l).trans' (hothers l hbefore)
        (hleft l (hl i (List.mem_append_right _ (List.mem_singleton.mpr rfl))))

end Independent

end Pool

end Effect
