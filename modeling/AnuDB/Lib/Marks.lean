import Mathlib.Data.List.Basic

/-!
# Marked elements

A list of texts is written with a separator between them. Where only some of the texts are known,
the others can be chosen such that nothing is confused: each is a run of a mark that occurs in none
of the known ones, and its length says which one it is. Every list is then read back from its text,
if the lists of known texts are (`Marks.map_fst_eq_of_intercalate_eq`).
-/

namespace Marks

variable {α β : Type*}

/-! ### Elements with a separator between them -/

section Separator

variable {sep : List β}

theorem intercalate_cons (x : List β) (q : List (List β)) :
    sep.intercalate (x :: q) = x ++ q.flatMap (sep ++ ·) := by
  induction q generalizing x with
  | nil => rw [List.intercalate_singleton, List.flatMap_nil, List.append_nil]
  | cons y q ih =>
    rw [List.intercalate_cons_cons, ih, List.flatMap_cons, List.append_assoc, List.append_assoc]

theorem intercalate_append_cons (p : List (List β)) (x : List β) (q : List (List β)) :
    sep.intercalate (p ++ x :: q) = p.flatMap (· ++ sep) ++ (x ++ q.flatMap (sep ++ ·)) := by
  induction p with
  | nil => rw [List.nil_append, intercalate_cons, List.flatMap_nil, List.nil_append]
  | cons y p ih =>
    rw [List.cons_append, List.intercalate_cons_of_ne_nil (by simp), ih, List.flatMap_cons]
    simp only [List.append_assoc]

theorem flatMap_append_sep {p : List (List β)} (hp : p ≠ []) :
    p.flatMap (· ++ sep) = sep.intercalate p ++ sep := by
  obtain ⟨p, x, rfl⟩ := List.eq_nil_or_concat p |>.resolve_left hp
  rw [List.concat_eq_append, intercalate_append_cons, List.flatMap_append]
  simp

theorem flatMap_sep_append (p : List (List β)) :
    p.flatMap (sep ++ ·) ++ sep = sep ++ p.flatMap (· ++ sep) := by
  induction p with
  | nil => simp
  | cons x p ih => simp only [List.flatMap_cons, List.append_assoc, ih]

/-- A separator after every element does not hide what stands between them. -/
theorem intercalate_eq_of_append_sep (hsep : sep ≠ []) {p q : List (List β)}
    (h : p.flatMap (· ++ sep) = q.flatMap (· ++ sep)) : sep.intercalate p = sep.intercalate q := by
  have hnil {p : List (List β)} (hp : p.flatMap (· ++ sep) = []) : p = [] := by
    by_contra hne
    rw [flatMap_append_sep hne, List.append_eq_nil_iff] at hp
    exact hsep hp.2
  by_cases hp : p = []
  · rw [hp, hnil (h.symm.trans (hp ▸ List.flatMap_nil))]
  · by_cases hq : q = []
    · exact absurd (hnil (h.trans (hq ▸ List.flatMap_nil))) hp
    · rw [flatMap_append_sep hp, flatMap_append_sep hq] at h
      exact List.append_cancel_right h

/-- Nor does one before every element. -/
theorem intercalate_eq_of_sep_append (hsep : sep ≠ []) {p q : List (List β)}
    (h : p.flatMap (sep ++ ·) = q.flatMap (sep ++ ·)) : sep.intercalate p = sep.intercalate q := by
  have hboth : sep ++ p.flatMap (· ++ sep) = sep ++ q.flatMap (· ++ sep) := by
    rw [← flatMap_sep_append, ← flatMap_sep_append, h]
  exact intercalate_eq_of_append_sep hsep (List.append_cancel_left hboth)

end Separator

/-! ### A run of marks -/

section Runs

variable {mark : β}

theorem replicate_append_inj {m n : ℕ} {s t : List β} (hs : s.head? ≠ some mark)
    (ht : t.head? ≠ some mark) (h : List.replicate m mark ++ s = List.replicate n mark ++ t) :
    m = n ∧ s = t := by
  induction m generalizing n with
  | zero =>
    cases n with
    | zero => exact ⟨rfl, h⟩
    | succ n => exact absurd (congrArg List.head? h) hs
  | succ m ih =>
    cases n with
    | zero => exact absurd (congrArg List.head? h.symm) ht
    | succ n =>
      obtain ⟨hmn, hst⟩ := ih (List.cons.inj h).2
      exact ⟨congrArg (· + 1) hmn, hst⟩

/-- What stands before a run of marks, how long it is, and what comes after it. -/
theorem append_replicate_inj {m n : ℕ} {a b s t : List β} (ha : mark ∉ a) (hb : mark ∉ b)
    (hs : s.head? ≠ some mark) (ht : t.head? ≠ some mark)
    (h : a ++ (List.replicate (m + 1) mark ++ s) = b ++ (List.replicate (n + 1) mark ++ t)) :
    a = b ∧ m = n ∧ s = t := by
  induction a generalizing b with
  | nil =>
    cases b with
    | nil =>
      obtain ⟨hmn, hst⟩ := replicate_append_inj hs ht h
      exact ⟨rfl, Nat.succ.inj hmn, hst⟩
    | cons y b => exact absurd ((List.cons.inj h).1 ▸ List.mem_cons_self) hb
  | cons x a ih =>
    cases b with
    | nil => exact absurd ((List.cons.inj h).1 ▸ List.mem_cons_self) ha
    | cons y b =>
      obtain ⟨hxy, h⟩ := List.cons.inj h
      obtain ⟨hab, hrest⟩ := ih (fun hmem => ha (List.mem_cons_of_mem x hmem))
        (fun hmem => hb (List.mem_cons_of_mem y hmem)) h
      exact ⟨by rw [hxy, hab], hrest⟩

end Runs

/-! ### Reading back -/

section ReadBack

/-- The first element that is not of a kind. -/
theorem forall_or_exists_first (Plain : α → Prop) (es : List α) :
    (∀ x ∈ es, Plain x) ∨ ∃ p x q, es = p ++ x :: q ∧ (∀ y ∈ p, Plain y) ∧ ¬Plain x := by
  induction es with
  | nil => exact .inl fun x hx => by cases hx
  | cons e es ih =>
    by_cases he : Plain e
    · rcases ih with hall | ⟨p, x, q, rfl, hp, hx⟩
      · exact .inl (List.forall_mem_cons.mpr ⟨he, hall⟩)
      · exact .inr ⟨e :: p, x, q, rfl, List.forall_mem_cons.mpr ⟨he, hp⟩, hx⟩
    · exact .inr ⟨[], e, es, rfl, (fun x hx => by cases hx), he⟩

variable {mark : β} {sep : List β} {Plain : α × List β → Prop} {number : α → ℕ}

theorem notMem_flatMap_append_sep (hmark : mark ∉ sep) {p : List (α × List β)}
    (hp : ∀ x ∈ p, mark ∉ x.2) : mark ∉ (p.map Prod.snd).flatMap (· ++ sep) := by
  rw [List.mem_flatMap]
  rintro ⟨s, hs, hmem⟩
  obtain ⟨x, hx, rfl⟩ := List.mem_map.mp hs
  exact (List.mem_append.mp hmem).elim (hp x hx) hmark

theorem notMem_intercalate (hmark : mark ∉ sep) {p : List (α × List β)}
    (hp : ∀ x ∈ p, mark ∉ x.2) : mark ∉ sep.intercalate (p.map Prod.snd) := by
  by_cases hnil : p.map Prod.snd = []
  · rw [hnil]
    exact List.not_mem_nil
  · intro hmem
    refine notMem_flatMap_append_sep hmark hp ?_
    rw [flatMap_append_sep hnil]
    exact List.mem_append_left sep hmem

theorem head?_flatMap_sep_append (hsep : sep ≠ []) (hmark : mark ∉ sep) (q : List (List β)) :
    (q.flatMap (sep ++ ·)).head? ≠ some mark := by
  cases q with
  | nil => simp
  | cons x q =>
    cases sep with
    | nil => exact absurd rfl hsep
    | cons b sep => exact fun h => hmark (Option.some.inj h ▸ List.mem_cons_self)

/-- **A list is read back from its text** if lists of plain elements are, and each of the others
is written as a run of marks of its own length. -/
theorem map_fst_eq_of_intercalate_eq (hsep : sep ≠ []) (hmark : mark ∉ sep)
    (hplain : ∀ x, Plain x → mark ∉ x.2)
    (hback : ∀ p q : List (α × List β), (∀ x ∈ p, Plain x) → (∀ x ∈ q, Plain x) →
      sep.intercalate (p.map Prod.snd) = sep.intercalate (q.map Prod.snd) →
        p.map Prod.fst = q.map Prod.fst)
    (hnumber : Function.Injective number) {es es' : List (α × List β)}
    (hes : ∀ x ∈ es, ¬Plain x → x.2 = List.replicate (number x.1 + 1) mark)
    (hes' : ∀ x ∈ es', ¬Plain x → x.2 = List.replicate (number x.1 + 1) mark)
    (h : sep.intercalate (es.map Prod.snd) = sep.intercalate (es'.map Prod.snd)) :
    es.map Prod.fst = es'.map Prod.fst := by
  -- a list with an element that is marked has a mark in its text
  have hmem {p q : List (α × List β)} {x : α × List β}
      (hx : x.2 = List.replicate (number x.1 + 1) mark) :
      mark ∈ sep.intercalate ((p ++ x :: q).map Prod.snd) := by
    rw [List.map_append, List.map_cons, intercalate_append_cons, hx]
    exact List.mem_append_right _ (List.mem_append_left _ List.mem_cons_self)
  induction hlength : es.length using Nat.strongRecOn generalizing es es' with
  | ind n ih =>
    rcases forall_or_exists_first Plain es with hall | ⟨p, x, q, rfl, hp, hx⟩ <;>
      rcases forall_or_exists_first Plain es' with hall' | ⟨p', x', q', rfl, hp', hx'⟩
    · exact hback es es' hall hall' h
    · exact absurd (h ▸ hmem (hes' x' (by simp) hx'))
        (notMem_intercalate hmark fun y hy => hplain y (hall y hy))
    · exact absurd (h ▸ hmem (hes x (by simp) hx))
        (notMem_intercalate hmark fun y hy => hplain y (hall' y hy))
    · -- both have a first element that is marked, and it is the same in the same place
      simp only [List.map_append, List.map_cons, intercalate_append_cons, hes x (by simp) hx,
        hes' x' (by simp) hx'] at h
      obtain ⟨hlead, hfirst, htail⟩ := append_replicate_inj
        (notMem_flatMap_append_sep hmark fun y hy => hplain y (hp y hy))
        (notMem_flatMap_append_sep hmark fun y hy => hplain y (hp' y hy))
        (head?_flatMap_sep_append hsep hmark _) (head?_flatMap_sep_append hsep hmark _) h
      have hleft := hback p p' hp hp' (intercalate_eq_of_append_sep hsep hlead)
      have hright := ih q.length (by rw [← hlength]; simp; omega)
        (fun y hy => hes y (by simp [hy])) (fun y hy => hes' y (by simp [hy]))
        (intercalate_eq_of_sep_append hsep htail) rfl
      rw [List.map_append, List.map_append, List.map_cons, List.map_cons, hleft,
        hnumber hfirst, hright]

end ReadBack

end Marks
