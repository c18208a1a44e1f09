import Mathlib.Data.Set.Function

/-!
# Actions that keep to their places

A state is looked at place by place. An action on it, which may fail, keeps to a set of places
(`Local.KeepsTo`) if it changes nothing elsewhere, and if neither what it makes of its places nor
whether it fails depends on anything elsewhere. Such actions are put together from smaller ones,
with places to look at and places to change.

Actions that keep to places of their own do not see each other. Whatever order they are tried in,
there is in the end, at the places of each, what it makes of them alone
(`Local.look_attempts_of_mem`).
-/

namespace Local

variable {σ κ ν α : Type} {look : σ → κ → ν} {Good : σ → Prop} {F G : Set κ}
  {f g : σ → Option σ} {s s' t : σ}

/-- **The action keeps to the places**, in good states. -/
structure KeepsTo (look : σ → κ → ν) (Good : σ → Prop) (F : Set κ) (f : σ → Option σ) :
    Prop where
  /-- The state stays good. -/
  good : ∀ {s t}, Good s → f s = some t → Good t
  /-- Nothing elsewhere is changed. -/
  frame : ∀ {s t}, Good s → f s = some t → ∀ k ∉ F, look t k = look s k
  /-- Nothing elsewhere matters. -/
  agree : ∀ {s s' t}, Good s → Good s' → Set.EqOn (look s') (look s) F → f s = some t →
    ∃ t', f s' = some t' ∧ Set.EqOn (look t') (look t) F

/-! ### How such actions are put together -/

theorem keepsTo_some : KeepsTo look Good F some where
  good hs h := Option.some.inj h ▸ hs
  frame _ h _ _ := by rw [Option.some.inj h]
  agree _ _ heq h := ⟨_, rfl, Option.some.inj h ▸ heq⟩

theorem keepsTo_none : KeepsTo look Good F fun _ => none where
  good _ h := by cases h
  frame _ h := by cases h
  agree _ _ _ h := by cases h

/-- What keeps to some places keeps to more of them. -/
theorem KeepsTo.mono (h : KeepsTo look Good F f) (hsub : F ⊆ G) : KeepsTo look Good G f where
  good := h.good
  frame hs ht k hk := h.frame hs ht k fun hF => hk (hsub hF)
  agree := by
    intro s s' t hs hs' heq ht
    obtain ⟨t', ht', hleft⟩ := h.agree hs hs' (heq.mono hsub) ht
    refine ⟨t', ht', fun k hk => ?_⟩
    by_cases hF : k ∈ F
    · exact hleft hF
    · -- a place that is not touched is as it was
      rw [h.frame hs' ht' k hF, h.frame hs ht k hF]
      exact heq hk

theorem KeepsTo.congr (h : KeepsTo look Good F f) (hfg : ∀ s, Good s → g s = f s) :
    KeepsTo look Good F g where
  good hs ht := h.good hs (hfg _ hs ▸ ht)
  frame hs ht := h.frame hs (hfg _ hs ▸ ht)
  agree hs hs' heq ht := by
    rw [hfg _ hs] at ht
    rw [hfg _ hs']
    exact h.agree hs hs' heq ht

/-- One after the other. -/
theorem KeepsTo.bind (hf : KeepsTo look Good F f) (hg : KeepsTo look Good F g) :
    KeepsTo look Good F fun s => (f s).bind g where
  good hs h := by
    obtain ⟨t, ht, h⟩ := Option.bind_eq_some_iff.mp h
    exact hg.good (hf.good hs ht) h
  frame hs h k hk := by
    obtain ⟨t, ht, h⟩ := Option.bind_eq_some_iff.mp h
    rw [hg.frame (hf.good hs ht) h k hk, hf.frame hs ht k hk]
  agree hs hs' heq h := by
    obtain ⟨t, ht, h⟩ := Option.bind_eq_some_iff.mp h
    obtain ⟨t', ht', heq⟩ := hf.agree hs hs' heq ht
    obtain ⟨u', hu', heq⟩ := hg.agree (hf.good hs ht) (hf.good hs' ht') heq h
    exact ⟨u', Option.bind_eq_some_iff.mpr ⟨t', ht', hu'⟩, heq⟩

/-- What is done may depend on what is at one of the places. -/
theorem keepsTo_look {f : ν → σ → Option σ} {k : κ} (hk : k ∈ F)
    (h : ∀ v, KeepsTo look Good F (f v)) : KeepsTo look Good F fun s => f (look s k) s where
  good hs ht := (h _).good hs ht
  frame hs ht := (h _).frame hs ht
  agree {s s' t} hs hs' heq ht := by
    rw [heq hk]
    exact (h _).agree hs hs' heq ht

theorem keepsTo_foldlM {f : σ → α → Option σ} {l : List α}
    (h : ∀ a ∈ l, KeepsTo look Good F fun s => f s a) :
    KeepsTo look Good F fun s => l.foldlM f s := by
  induction l with
  | nil => exact keepsTo_some
  | cons a l ih =>
    obtain ⟨ha, hl⟩ := List.forall_mem_cons.mp h
    exact ha.bind (ih hl)

/-! ### Actions that are tried -/

/-- **The state when an action has been tried**: if it fails, the one before. -/
def attempt (f : σ → Option σ) (s : σ) : σ := (f s).getD s

section Attempt

variable (hf : KeepsTo look Good F f)

include hf

theorem KeepsTo.good_attempt (hs : Good s) : Good (attempt f s) := by
  rw [attempt]
  rcases h : f s with _ | t
  · exact hs
  · exact hf.good hs h

theorem KeepsTo.look_attempt_of_notMem (hs : Good s) {k : κ} (hk : k ∉ F) :
    look (attempt f s) k = look s k := by
  rw [attempt]
  rcases h : f s with _ | t
  · rfl
  · exact hf.frame hs h k hk

/-- What becomes of the places depends on what is there. -/
theorem KeepsTo.eqOn_attempt (hs : Good s) (hs' : Good s')
    (heq : Set.EqOn (look s') (look s) F) :
    Set.EqOn (look (attempt f s')) (look (attempt f s)) F := by
  rw [attempt, attempt]
  rcases h : f s with _ | t
  · -- the action fails in the other state as well
    rcases h' : f s' with _ | t'
    · exact heq
    · obtain ⟨t, ht, -⟩ := hf.agree hs' hs heq.symm h'
      cases h.symm.trans ht
  · obtain ⟨t', ht', hleft⟩ := hf.agree hs hs' heq h
    rw [ht']
    exact hleft

end Attempt

/-! ### Actions with places of their own -/

/-- The state when actions have been tried one after the other. -/
def attempts (act : α → σ → Option σ) (l : List α) (s : σ) : σ :=
  l.foldl (fun s a => attempt (act a) s) s

section Attempts

variable {places : α → Set κ} {act : α → σ → Option σ} {l : List α} {a : α} {k : κ}
  (h : ∀ a ∈ l, KeepsTo look Good (places a) (act a)) (hs : Good s)

include h hs

/-- Where no action has a place, nothing is changed. -/
theorem look_attempts_of_notMem (hk : ∀ a ∈ l, k ∉ places a) :
    look (attempts act l s) k = look s k := by
  induction l generalizing s with
  | nil => rfl
  | cons a l ih =>
    obtain ⟨ha, hl⟩ := List.forall_mem_cons.mp h
    obtain ⟨hka, hkl⟩ := List.forall_mem_cons.mp hk
    exact (ih hl (ha.good_attempt hs) hkl).trans (ha.look_attempt_of_notMem hs hka)

/-- **Each action might as well be alone**: where it has its places, there is what it makes of
them. -/
theorem look_attempts_of_mem (hnodup : l.Nodup) (ha : a ∈ l)
    (hapart : ∀ b ∈ l, b ≠ a → ∀ k ∈ places a, k ∉ places b) (hk : k ∈ places a) :
    look (attempts act l s) k = look (attempt (act a) s) k := by
  induction l generalizing s with
  | nil => exact absurd ha List.not_mem_nil
  | cons b l ih =>
    obtain ⟨hb, hl⟩ := List.forall_mem_cons.mp h
    obtain ⟨hbl, hnodup⟩ := List.nodup_cons.mp hnodup
    obtain ⟨hapartb, hapartl⟩ := List.forall_mem_cons.mp hapart
    by_cases hab : b = a
    · -- the others come later
      subst hab
      refine look_attempts_of_notMem hl (hb.good_attempt hs) fun b' hb' => ?_
      exact hapartl b' hb' (fun heq => hbl (heq ▸ hb')) k hk
    · -- what the first one does is not seen
      have ha' : a ∈ l := (List.mem_cons.mp ha).resolve_left fun heq => hab heq.symm
      have hseen : Set.EqOn (look (attempt (act b) s)) (look s) (places a) :=
        fun k hk => hb.look_attempt_of_notMem hs (hapartb hab k hk)
      calc look (attempts act (b :: l) s) k
          = look (attempt (act a) (attempt (act b) s)) k :=
            ih hl (hb.good_attempt hs) hnodup ha' hapartl
        _ = look (attempt (act a) s) k :=
            (hl a ha').eqOn_attempt hs (hb.good_attempt hs) hseen hk

end Attempts

end Local
