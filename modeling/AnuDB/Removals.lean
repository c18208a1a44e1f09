import AnuDB.Stumbles

/-!
# Removing the members that paths name

`$unset` goes through its keys one after the other, and each key is looked up in what the keys
before it have left. It still removes exactly the members that its keys name in the data there
was (`AnuDB.Document.unset_eq`). The reason is that a removal moves nothing: elements keep their
numbers, as only members are removed, so a path leads to where it led, or into what is gone. So
the data after some keys is always the original with a set of locations cut out of it
(`AnuDB.Json.without`), and one more key adds the location it names in the original
(`AnuDB.unsetAt_without`).
-/

namespace AnuDB

mutual

/-- **A value without the members at some locations**, and with everything else it has. -/
def Json.without (cut : Json.Location → Bool) : Json → Json
  | .array items => .array (withoutItems cut 0 items)
  | .object members => .object (withoutMembers cut members)
  | j => j

/-- Elements from a number on, without the members at some locations in them. -/
def withoutItems (cut : Json.Location → Bool) (n : ℕ) : List Json → List Json
  | [] => []
  | item :: items =>
    item.without (fun l => cut (.element n :: l)) :: withoutItems cut (n + 1) items

/-- Members, without those at some locations. -/
def withoutMembers (cut : Json.Location → Bool) : List (Bytes × Json) → List (Bytes × Json)
  | [] => []
  | (name, value) :: members =>
    if cut [.member name] then withoutMembers cut members
    else (name, value.without fun l => cut (.member name :: l)) :: withoutMembers cut members

end

variable {cut cut' : Json.Location → Bool}

/-! ### Elements and members -/

theorem withoutItems_eq (n : ℕ) (items : List Json) : withoutItems cut n items =
    items.mapIdx fun i item => item.without fun l => cut (.element (n + i) :: l) := by
  induction items generalizing n with
  | nil => rfl
  | cons item items ih =>
    rw [withoutItems, ih, List.mapIdx_cons]
    simp only [Nat.add_zero, Nat.add_assoc, Nat.add_comm 1]

theorem getElem?_withoutItems (items : List Json) (i : ℕ) : (withoutItems cut 0 items)[i]? =
    (items[i]?).map fun item => item.without fun l => cut (.element i :: l) := by
  rw [withoutItems_eq, List.getElem?_mapIdx]
  simp only [Nat.zero_add]

theorem lookup_withoutMembers (name : Bytes) (members : List (Bytes × Json)) :
    (withoutMembers cut members).lookup name = if cut [.member name] then none
      else (members.lookup name).map fun value => value.without fun l => cut (.member name :: l) := by
  induction members with
  | nil => simp [withoutMembers]
  | cons x members ih =>
    obtain ⟨name', value⟩ := x
    rw [withoutMembers, List.lookup_cons]
    by_cases hname : name = name'
    · subst hname
      split_ifs with hcut
      · rw [ih, if_pos hcut]
      · simp
    · rw [beq_eq_false_iff_ne.mpr hname]
      split_ifs with hcut' hcut hcut
      · rw [ih, if_pos hcut]
      · rw [ih, if_neg hcut]
      · rw [List.lookup_cons, beq_eq_false_iff_ne.mpr hname, ih, if_pos hcut]
      · rw [List.lookup_cons, beq_eq_false_iff_ne.mpr hname, ih, if_neg hcut]

/-- What is cut out below members that are cut out does not matter. -/
theorem withoutMembers_congr {members : List (Bytes × Json)}
    (h : ∀ x ∈ members, cut [.member x.1] = cut' [.member x.1] ∧
      (cut [.member x.1] = false → ∀ l, cut (.member x.1 :: l) = cut' (.member x.1 :: l))) :
    withoutMembers cut members = withoutMembers cut' members := by
  induction members with
  | nil => rfl
  | cons x members ih =>
    obtain ⟨name, value⟩ := x
    obtain ⟨⟨hone, hbelow⟩, hrest⟩ := List.forall_mem_cons.mp h
    rw [withoutMembers, withoutMembers, ← hone, ih hrest]
    split_ifs with hcut
    · rfl
    · rw [funext (hbelow (Bool.eq_false_of_not_eq_true hcut))]

/-- Erasing a member cuts it out. -/
theorem erase_withoutMembers (name : Bytes) (members : List (Bytes × Json)) :
    Assoc.erase name (withoutMembers cut members) =
      withoutMembers (fun l => cut l || decide (l = [.member name])) members := by
  induction members with
  | nil => rfl
  | cons x members ih =>
    obtain ⟨name', value⟩ := x
    rw [withoutMembers, withoutMembers]
    by_cases hname : name' = name
    · subst hname
      rw [← ih]
      split_ifs with hcut hcut'
      · rfl
      · simp at hcut'
      · simp [Assoc.erase]
      · simp at *
    · have hne : (decide ([Json.Step.member name'] = [.member name])) = false := by simp [hname]
      have hbelow : (fun l => cut (.member name' :: l) ||
          decide (Json.Step.member name' :: l = [.member name])) =
            fun l => cut (.member name' :: l) := by
        funext l
        simp [hname]
      simp only [hne, Bool.or_false, hbelow, ← ih]
      split_ifs with hcut
      · rfl
      · simp [Assoc.erase, hname]

/-- A change below one member. -/
theorem set_withoutMembers {name : Bytes} {c r : Json} {members : List (Bytes × Json)}
    (hsorted : (members.map Prod.fst).Pairwise (· < ·)) (hlookup : members.lookup name = some c)
    (hcut : cut [.member name] = false) (hcut' : cut' [.member name] = false)
    (hr : r = c.without fun l => cut' (.member name :: l))
    (hother : ∀ name', name' ≠ name → ∀ l, cut (.member name' :: l) = cut' (.member name' :: l)) :
    Assoc.set name r (withoutMembers cut members) = withoutMembers cut' members := by
  induction members with
  | nil => cases hlookup
  | cons x members ih =>
    obtain ⟨name', value⟩ := x
    obtain ⟨hlt, hsorted⟩ := List.pairwise_cons.mp hsorted
    rw [List.lookup_cons] at hlookup
    rw [withoutMembers, withoutMembers]
    by_cases hname : name = name'
    · subst hname
      rw [beq_self_eq_true] at hlookup
      obtain rfl := Option.some.inj hlookup
      -- the member is not among the later ones
      have hrest : withoutMembers cut members = withoutMembers cut' members := by
        refine withoutMembers_congr fun y hy => ?_
        have hne : y.1 ≠ name := (hlt y.1 (List.mem_map_of_mem hy)).ne'
        exact ⟨hother y.1 hne [], fun _ => hother y.1 hne⟩
      rw [hcut, hcut', if_neg Bool.false_ne_true, if_neg Bool.false_ne_true, hrest, Assoc.set,
        if_neg (lt_irrefl name), if_pos rfl, hr]
    · rw [beq_eq_false_iff_ne.mpr hname] at hlookup
      obtain ⟨before, after, hmembers, -⟩ := List.lookup_eq_some_iff.mp hlookup
      have hmem : name ∈ members.map Prod.fst := by simp [hmembers]
      have hgt : name' < name := hlt name hmem
      have ih := ih hsorted hlookup
      rw [← hother name' (Ne.symm hname) [], funext (hother name' (Ne.symm hname))]
      split_ifs with hcutname
      · exact ih
      · rw [Assoc.set, if_neg (not_lt_of_gt hgt), if_neg hname, ih]

/-- A change below one element. -/
theorem set_withoutItems {i : ℕ} {c r : Json} {items : List Json} (hitem : items[i]? = some c)
    (hr : r = c.without fun l => cut' (.element i :: l))
    (hother : ∀ i', i' ≠ i → ∀ l, cut (.element i' :: l) = cut' (.element i' :: l)) :
    (withoutItems cut 0 items).set i r = withoutItems cut' 0 items := by
  refine List.ext_getElem? fun n => ?_
  rw [List.getElem?_set, getElem?_withoutItems, getElem?_withoutItems]
  by_cases hn : i = n
  · subst hn
    have hlt : i < (withoutItems cut 0 items).length := by
      rw [withoutItems_eq, List.length_mapIdx]
      exact (List.getElem?_eq_some_iff.mp hitem).1
    rw [if_pos rfl, if_pos hlt, hitem, hr]
    rfl
  · rw [if_neg hn, funext (hother n (Ne.symm hn))]

/-! ### Steps and paths -/

namespace Json

variable {d c : Json} {s : Step} {token last : Bytes} {tokens : List Bytes}

/-- Whether a step leads to a member that is cut out. -/
def Step.gone (cut : Location → Bool) : Step → Bool
  | .member name => cut [.member name]
  | .element _ => false

/-- **A step leads to where it led**, unless that is cut out. -/
theorem follow_without : (d.without cut).follow token = (d.follow token).bind fun x =>
    if x.1.gone cut then none else some (x.1, x.2.without fun l => cut (x.1 :: l)) := by
  cases d with
  | object members =>
    rw [without, follow, follow, lookup_withoutMembers]
    rcases members.lookup token with _ | value
    · simp
    · by_cases hcut : cut [.member token] = true <;> simp [Step.gone, hcut]
  | array items =>
    rw [without, follow, follow]
    split_ifs
    · rw [getElem?_withoutItems]
      rcases items[Bytes.ofDecimal token]? with _ | item <;> rfl
    · rfl
  | _ => rfl

/-- What is cut out at a step that is gone does not matter. -/
theorem without_congr_of_gone (hs : s.gone cut = true)
    (hsame : ∀ l, cut l = true → cut' l = true)
    (hother : ∀ s', s' ≠ s → ∀ l, cut (s' :: l) = cut' (s' :: l)) :
    d.without cut = d.without cut' := by
  cases s with
  | element index => cases hs
  | member name =>
    cases d with
    | object members =>
      rw [without, without]
      refine congrArg object (withoutMembers_congr fun x _ => ?_)
      by_cases hx : x.1 = name
      · rw [hx]
        exact ⟨Eq.trans hs (hsame _ hs).symm, fun hcut => absurd (hs.symm.trans hcut) (by simp)⟩
      · have hne : Step.member x.1 ≠ .member name := fun heq => hx (Step.member.inj heq)
        exact ⟨hother _ hne [], fun _ => hother _ hne⟩
    | array items =>
      rw [without, without, withoutItems_eq, withoutItems_eq]
      simp only [hother (.element _) (by simp)]
    | _ => rfl

/-- **A change at a step that is not gone.** -/
theorem put_without {r : Json} (hd : d.sorted = true) (hchild : d.child s = some c)
    (hs : s.gone cut = false) (hs' : s.gone cut' = false)
    (hr : r = c.without fun l => cut' (s :: l))
    (hother : ∀ s', s' ≠ s → ∀ l, cut (s' :: l) = cut' (s' :: l)) :
    (d.without cut).put s r = d.without cut' := by
  cases s with
  | member name =>
    cases d with
    | object members =>
      rw [without, without]
      refine congrArg object (set_withoutMembers (sorted_object.mp hd).1 hchild hs hs' hr ?_)
      exact fun name' hne => hother _ fun heq => hne (Step.member.inj heq)
    | _ => cases hchild
  | element index =>
    cases d with
    | array items =>
      rw [without, without]
      refine congrArg array (set_withoutItems hchild hr ?_)
      exact fun i hne => hother _ fun heq => hne (Step.element.inj heq)
    | _ => cases hchild

/-- A path names a member, never the value itself. -/
theorem locate_ne_nil : d.locate last tokens ≠ some [] := by
  cases tokens with
  | nil =>
    rw [locate]
    split_ifs <;> simp
  | cons token tokens =>
    rw [locate]
    rcases d.follow token with _ | x
    · simp
    · simp

end Json

/-- One more name: what is erased is cut out, if it is there. -/
theorem unsetAt_nil_without {last : Bytes} {d r : Json}
    (h : unsetAt last [] (d.without cut) = .ok r) :
    r = d.without fun l => cut l || decide (d.locate last [] = some l) := by
  rw [unsetAt] at h
  rw [Json.locate]
  cases d with
  | object members =>
    have herased : r = .object (Assoc.erase last (withoutMembers cut members)) := by
      rw [Json.without] at h
      split_ifs at h with hcontains
      · exact (Except.ok.inj h).symm
      · have hnone : (withoutMembers cut members).lookup last = none :=
          Option.not_isSome_iff_eq_none.mp hcontains
        rw [Assoc.erase_of_lookup_eq_none hnone]
        exact (Except.ok.inj h).symm
    rw [herased, Json.without]
    refine congrArg Json.object ?_
    by_cases hthere : (Json.object members).contains last = true
    · rw [erase_withoutMembers, if_pos hthere]
      simp only [Option.some.injEq, eq_comm]
    · have hnone : members.lookup last = none := Option.not_isSome_iff_eq_none.mp hthere
      rw [if_neg hthere, Assoc.erase_of_lookup_eq_none (by rw [lookup_withoutMembers, hnone]; simp)]
      simp
  | array items =>
    obtain rfl := Except.ok.inj h
    simp [Json.contains, Json.find?]
  | _ => exact (Except.ok.inj h).symm

/-- **One more path**: what is cut out then is what was, and the member that the path names in the
value there was at first. -/
theorem unsetAt_without {last : Bytes} {tokens : List Bytes} {d r : Json} (hd : d.sorted = true)
    (h : unsetAt last tokens (d.without cut) = .ok r) :
    r = d.without fun l => cut l || decide (d.locate last tokens = some l) := by
  induction tokens generalizing d r cut with
  | nil => exact unsetAt_nil_without h
  | cons token tokens ih =>
    obtain ⟨next, hdescend, h⟩ := bind_eq_ok_iff.mp h
    rw [Json.locate]
    rcases hfollow : d.follow token with _ | ⟨s, c⟩
    · have hnone : (d.without cut).follow token = none := by
        rw [Json.follow_without, hfollow]
        rfl
      rcases follow_of_descend hdescend with ⟨rfl, -⟩ | ⟨s', c', -, hsome⟩
      · obtain rfl := Except.ok.inj h
        simp
      · rw [hnone] at hsome
        cases hsome
    have hstep : (d.without cut).follow token =
        if s.gone cut then none else some (s, c.without fun l => cut (s :: l)) := by
      rw [Json.follow_without, hfollow]
      rfl
    -- elsewhere nothing is added
    have hother : ∀ s', s' ≠ s → ∀ l, cut (s' :: l) = (cut (s' :: l) || decide
        (((some (s, c)).bind fun x => (x.2.locate last tokens).map (x.1 :: ·)) =
          some (s' :: l))) := by
      intro s' hs' l
      have hne : ((some (s, c)).bind fun x => (x.2.locate last tokens).map (x.1 :: ·)) ≠
          some (s' :: l) := by
        rw [Option.bind_some]
        intro heq
        obtain ⟨l', -, hl'⟩ := Option.map_eq_some_iff.mp heq
        exact hs' (List.cons.inj hl').1.symm
      rw [decide_eq_false hne, Bool.or_false]
    rcases follow_of_descend hdescend with ⟨rfl, hnone⟩ | ⟨s', c', rfl, hsome⟩
    · obtain rfl := Except.ok.inj h
      rw [hstep] at hnone
      split_ifs at hnone with hgone
      exact Json.without_congr_of_gone hgone (fun l hl => by rw [hl, Bool.true_or]) hother
    · rw [hstep] at hsome
      split_ifs at hsome with hgone
      obtain ⟨rfl, rfl⟩ := Prod.mk.inj (Option.some.inj hsome)
      obtain ⟨r', hunset, h⟩ := bind_eq_ok_iff.mp h
      obtain rfl := Except.ok.inj h
      have hchild := Json.child_of_follow hfollow
      have hr' := ih (Json.sorted_of_child hd hchild) hunset
      refine Json.put_without hd hchild (Bool.eq_false_of_not_eq_true hgone) ?_ ?_ hother
      · cases s with
        | element index => rfl
        | member name =>
          have hne : ((some (Json.Step.member name, c)).bind fun x =>
              (x.2.locate last tokens).map (x.1 :: ·)) ≠ some [.member name] := by
            rw [Option.bind_some]
            intro heq
            obtain ⟨l', hl', hcons⟩ := Option.map_eq_some_iff.mp heq
            exact Json.locate_ne_nil ((List.cons.inj hcons).2 ▸ hl')
          rw [Json.Step.gone, decide_eq_false hne, Bool.or_false]
          exact Bool.eq_false_of_not_eq_true hgone
      · rw [hr']
        congr 1
        funext l
        simp [Option.map_eq_some_iff]

/-! ### Walks that throw -/

namespace Json

variable {d : Json} {tokens : List Bytes}

theorem without_isObject (d : Json) : (d.without cut).isObject = d.isObject := by
  cases d <;> rfl

/-- **What is cut out makes no walk throw.** -/
theorem unsetStumbles_mono (hle : ∀ l, cut l = true → cut' l = true)
    (h : (d.without cut').UnsetStumbles tokens) : (d.without cut).UnsetStumbles tokens := by
  induction tokens generalizing d cut cut' with
  | nil => exact h
  | cons token tokens ih =>
    rcases h with h | ⟨x, hx, h⟩
    · left
      cases d <;> exact h
    · rw [follow_without] at hx
      obtain ⟨⟨s, c⟩, hfollow, hx⟩ := Option.bind_eq_some_iff.mp hx
      split_ifs at hx with hgone'
      obtain rfl := Option.some.inj hx
      have hgone : ¬s.gone cut = true := by
        intro hgone
        cases s with
        | member name => exact hgone' (hle _ hgone)
        | element index => cases hgone
      refine Or.inr ⟨(s, c.without fun l => cut (s :: l)), ?_, ih (fun l => hle (s :: l)) h⟩
      rw [follow_without, hfollow]
      exact if_neg hgone

end Json

mutual

/-- Nothing is cut out at no location. -/
theorem without_false : ∀ j : Json, (j.without fun _ => false) = j
  | .null => rfl
  | .boolean _ => rfl
  | .integer _ => rfl
  | .float _ => rfl
  | .string _ => rfl
  | .array items => congrArg Json.array (withoutItems_false 0 items)
  | .object members => congrArg Json.object (withoutMembers_false members)

theorem withoutItems_false (n : ℕ) : ∀ items, withoutItems (fun _ => false) n items = items
  | [] => rfl
  | item :: items =>
    congrArg₂ List.cons (without_false item) (withoutItems_false (n + 1) items)

theorem withoutMembers_false : ∀ members, withoutMembers (fun _ => false) members = members
  | [] => rfl
  | (name, value) :: members =>
    congrArg₂ List.cons (congrArg (Prod.mk name) (without_false value)) (withoutMembers_false members)

end

/-! ### Unsetting -/

/-- The locations that keys name in a value. -/
def named (paths : List FieldPath) (d : Json) (l : Json.Location) : Bool :=
  paths.any fun p => decide (p.locate d = some l)

/-- An update that unsets keys, with values that are not looked at. -/
def unsetOf (ops : List (FieldPath × Json)) : Json :=
  updateOf "$unset" (ops.map fun x => (x.1.key, x.2))

/-- A name and a path are unset alike. -/
theorem FieldPath.applyUnset_key (p : FieldPath) {data : Json} (hdata : data.isObject = true)
    (value : Json) : applyUnset data p.key value = unsetAt p.last p.parents data := by
  rw [applyUnset]
  by_cases hp : p.parents = []
  · have hkey : p.key = p.last := by
      rw [key, hp]
      simp
    rw [if_neg fun hdot => dot_mem_key_iff.mp hdot hp, hkey, hp, unsetAt]
    split_ifs with hcontains
    · rfl
    · cases data with
      | object members =>
        have hnone := Option.not_isSome_iff_eq_none.mp hcontains
        exact congrArg (fun l => Except.ok (Json.object l)) (Assoc.erase_of_lookup_eq_none hnone)
      | _ => cases hdata
  · rw [if_pos (dot_mem_key_iff.mpr hp), pathTokens_key hp]
    simp only [List.getLastD_concat, List.dropLast_concat]

section Unset

variable {d : Json} (hobject : d.isObject = true) (hd : d.sorted = true)
include hobject hd

/-- One key. -/
theorem applyUnset_without {p : FieldPath} {value r : Json}
    (h : applyUnset (d.without cut) p.key value = .ok r) :
    r = d.without fun l => cut l || decide (p.locate d = some l) := by
  rw [p.applyUnset_key ((Json.without_isObject d).trans hobject)] at h
  exact unsetAt_without hd h

/-- **The keys one after the other**: every one of them adds the location that it names at
first, and none of them throws in what is left. -/
theorem foldlM_applyUnset {ops : List (FieldPath × Json)} {r : Json}
    (h : ops.foldlM (fun data x => applyUnset data x.1.key x.2) (d.without cut) = .ok r) :
    r = d.without (fun l => cut l || named (ops.map Prod.fst) d l) ∧
      ∀ x ∈ ops, ¬r.UnsetStumbles x.1.parents := by
  induction ops generalizing cut with
  | nil =>
    refine ⟨(Except.ok.inj h).symm.trans ?_, fun x hx => by cases hx⟩
    simp [named]
  | cons x ops ih =>
    obtain ⟨r', hfirst, hrest⟩ := bind_eq_ok_iff.mp (List.foldlM_cons.symm.trans h)
    obtain rfl := applyUnset_without hobject hd hfirst
    obtain ⟨rfl, hok⟩ := ih hrest
    refine ⟨?_, List.forall_mem_cons.mpr ⟨fun hstumbles => ?_, hok⟩⟩
    · congr 1
      funext l
      exact Bool.or_assoc _ _ _
    · -- it has been walked in more than is left
      rw [x.1.applyUnset_key ((Json.without_isObject d).trans hobject)] at hfirst
      refine exists_unsetAt_iff.mp ⟨_, hfirst⟩ (Json.unsetStumbles_mono (fun l hl => ?_) hstumbles)
      rw [hl, Bool.true_or, Bool.true_or]

/-- Keys whose locations are cut out change nothing. -/
theorem foldlM_applyUnset_again {ops : List (FieldPath × Json)}
    (hcut : ∀ x ∈ ops, ∀ l, x.1.locate d = some l → cut l = true)
    (hok : ∀ x ∈ ops, ¬(d.without cut).UnsetStumbles x.1.parents) :
    ops.foldlM (fun data x => applyUnset data x.1.key x.2) (d.without cut) =
      .ok (d.without cut) := by
  induction ops with
  | nil => rfl
  | cons x ops ih =>
    obtain ⟨hone, hcut⟩ := List.forall_mem_cons.mp hcut
    obtain ⟨hwalks, hok⟩ := List.forall_mem_cons.mp hok
    obtain ⟨r, hunset⟩ := (@exists_unsetAt_iff x.1.last _ _).mpr hwalks
    rw [← x.1.applyUnset_key ((Json.without_isObject d).trans hobject) x.2] at hunset
    have hr := applyUnset_without hobject hd hunset
    have hsame : (fun l => cut l || decide (x.1.locate d = some l)) = cut := by
      funext l
      by_cases hl : x.1.locate d = some l
      · rw [hone l hl, Bool.true_or]
      · rw [decide_eq_false hl, Bool.or_false]
    rw [hsame] at hr
    rw [List.foldlM_cons, hunset, ok_bind, hr]
    exact ih hcut hok

end Unset

/-- An update that unsets keys goes through them. -/
theorem Document.applyUpdate_unsetOf (doc : Document) (ops : List (FieldPath × Json)) :
    doc.applyUpdate (unsetOf ops) =
      (ops.foldlM (fun data x => applyUnset data x.1.key x.2) doc.data_).map fun data =>
        { doc with data_ := data } := by
  rw [unsetOf, applyUpdate_updateOf operator_unset, List.foldlM_map]

/-- **`$unset` removes exactly the members that its keys name**, where it returns; so the order of
the keys does not matter, and doing it again changes nothing. -/
theorem Document.unset_eq {doc doc' : Document} {ops : List (FieldPath × Json)}
    (hobject : doc.data_.isObject = true) (hdata : doc.data_.sorted = true)
    (h : doc.applyUpdate (unsetOf ops) = .ok doc') :
    doc' = { doc with data_ := doc.data_.without (named (ops.map Prod.fst) doc.data_) } ∧
      (∀ ops' doc'', ops'.Perm ops → doc.applyUpdate (unsetOf ops') = .ok doc'' → doc'' = doc') ∧
      doc'.applyUpdate (unsetOf ops) = .ok doc' := by
  have hruns {ops : List (FieldPath × Json)} {doc' : Document}
      (h : doc.applyUpdate (unsetOf ops) = .ok doc') :
      doc' = { doc with data_ := doc.data_.without (named (ops.map Prod.fst) doc.data_) } ∧
        ∀ x ∈ ops, ¬doc'.data_.UnsetStumbles x.1.parents := by
    rw [applyUpdate_unsetOf] at h
    rcases hfold : ops.foldlM (fun data x => applyUnset data x.1.key x.2) doc.data_ with exn | data
    · rw [hfold] at h
      cases h
    · rw [hfold] at h
      obtain rfl : { doc with data_ := data } = doc' := Except.ok.inj h
      rw [← without_false doc.data_] at hfold
      obtain ⟨rfl, hok⟩ := foldlM_applyUnset hobject hdata hfold
      exact ⟨by simp only [Bool.false_or], hok⟩
  obtain ⟨rfl, hok⟩ := hruns h
  refine ⟨rfl, fun ops' doc'' hperm h' => ?_, ?_⟩
  · have hnamed : named (ops'.map Prod.fst) doc.data_ = named (ops.map Prod.fst) doc.data_ := by
      funext l
      exact (hperm.map Prod.fst).any_eq
    rw [(hruns h').1, hnamed]
  · rw [applyUpdate_unsetOf]
    have hagain := foldlM_applyUnset_again hobject hdata
      (fun x hx l hl => List.any_eq_true.mpr
        ⟨x.1, List.mem_map_of_mem hx, decide_eq_true hl⟩) hok
    exact congrArg (Except.map fun data => { doc with data_ := data }) hagain

/-- A document with a member of a member. -/
def nestedDocument : Document := ⟨[1], .object [(Bytes.ofText "a", .object
  [(Bytes.ofText "b", .null), (Bytes.ofText "c", .null)])]⟩

/-- The member is unset. -/
theorem Document.unset_nested :
    nestedDocument.applyUpdate (unsetOf [(pathAB, .null)]) =
      .ok ⟨[1], nestedDocument.data_.without (named [pathAB] nestedDocument.data_)⟩ := by
  have hunset : nestedDocument.applyUpdate (unsetOf [(pathAB, .null)]) =
      .ok ⟨[1], .object [(Bytes.ofText "a", .object [(Bytes.ofText "c", .null)])]⟩ := rfl
  have hdata : nestedDocument.data_.sorted = true := by decide +kernel
  rw [hunset, (unset_eq rfl hdata hunset).1]
  rfl

end AnuDB
