import AnuDB.Paths

/-!
# Updates that throw

An update whose operands are objects throws in one way only: a piece of a path that consists of
digits is read as the number of an element with `std::stoi`, which throws if there is no digit at
all or if the number is too large for an `int` (`AnuDB.Json.Stumbles`). Members are looked up and
set without throwing, as the data stays an object. So an update returns exactly if no walk of
`$set` and `$unset` stands at an array with such a piece, in the data that the fields before have
left (`AnuDB.Document.returns_iff`).
-/

namespace AnuDB

namespace Json

/-- **A piece of a path that throws at a value**: digits, at an array, that are none or too
many for the number of an element. -/
def Stumbles (token : Bytes) : Json → Prop
  | array _ => allDigits token = true ∧ (token = [] ∨ 2 ^ 31 ≤ Bytes.ofDecimal token)
  | _ => False

/-- The walk of `$set` throws: it skips what leads nowhere. -/
def SetStumbles : List Bytes → Json → Prop
  | [], _ => False
  | token :: tokens, j => j.Stumbles token ∨ SetStumbles tokens ((j.follow token).elim j Prod.snd)

/-- The walk of `$unset` throws: it ends where a piece leads nowhere. -/
def UnsetStumbles : List Bytes → Json → Prop
  | [], _ => False
  | token :: tokens, j =>
    j.Stumbles token ∨ ∃ x, j.follow token = some x ∧ UnsetStumbles tokens x.2

theorem put_isObject (s : Step) (j value : Json) : (j.put s value).isObject = j.isObject := by
  cases s <;> cases j <;> rfl

end Json

variable {token last : Bytes} {tokens : List Bytes} {j : Json}

/-! ### Walks -/

theorem exists_descend_iff : (∃ next, descend token j = .ok next) ↔ ¬j.Stumbles token := by
  cases j with
  | array items =>
    rw [descend, Json.Stumbles, stoi]
    split_ifs with hdigits hbad
    · refine iff_of_false ?_ fun h => h ⟨hdigits, hbad⟩
      rintro ⟨next, h⟩
      cases h
    · exact iff_of_true ⟨_, rfl⟩ fun h => hbad h.2
    · exact iff_of_true ⟨_, rfl⟩ fun h => hdigits h.1
  | _ => exact iff_of_true ⟨_, rfl⟩ id

/-- A piece that throws leads nowhere. -/
theorem descend_of_stumbles (h : j.Stumbles token) : ∃ exn, descend token j = .error exn := by
  rcases hdescend : descend token j with exn | next
  · exact ⟨exn, rfl⟩
  · exact absurd h (exists_descend_iff.mp ⟨next, hdescend⟩)

/-- **A piece that leads nowhere is not found**, exactly if it does not throw. -/
theorem descend_eq_none_iff (hfollow : j.follow token = none) :
    descend token j = .ok none ↔ ¬j.Stumbles token := by
  refine ⟨fun h => exists_descend_iff.mp ⟨_, h⟩, fun h => ?_⟩
  obtain ⟨next, hdescend⟩ := exists_descend_iff.mpr h
  rcases follow_of_descend hdescend with ⟨rfl, -⟩ | ⟨s, c, -, hsome⟩
  · exact hdescend
  · rw [hfollow] at hsome
    cases hsome

theorem exists_setAt_iff {value : Json} :
    (∃ r, setAt last value tokens j = .ok r) ↔ ¬j.SetStumbles tokens := by
  induction tokens generalizing j with
  | nil =>
    refine iff_of_true ?_ id
    rw [setAt]
    split_ifs with hcontains
    · obtain ⟨w, hw⟩ := Option.isSome_iff_exists.mp hcontains
      exact Json.exists_setMember (Json.isObject_of_find? hw) last value
    · exact ⟨j, rfl⟩
  | cons token tokens ih =>
    rw [Json.SetStumbles, setAt]
    by_cases hstumbles : j.Stumbles token
    · obtain ⟨exn, hdescend⟩ := descend_of_stumbles hstumbles
      rw [hdescend]
      refine iff_of_false ?_ fun h => h (Or.inl hstumbles)
      rintro ⟨r, h⟩
      cases h
    · obtain ⟨next, hdescend⟩ := exists_descend_iff.mpr hstumbles
      rw [hdescend, or_iff_right hstumbles]
      rcases follow_of_descend hdescend with ⟨rfl, hnone⟩ | ⟨s, c, rfl, hsome⟩
      · rw [hnone]
        exact ih
      · rw [hsome, Option.elim_some, ← ih]
        simp only [ok_bind]
        constructor
        · rintro ⟨r, h⟩
          obtain ⟨r', hset, -⟩ := bind_eq_ok_iff.mp h
          exact ⟨r', hset⟩
        · rintro ⟨r', h⟩
          rw [h]
          exact ⟨j.put s r', rfl⟩

theorem exists_unsetAt_iff : (∃ r, unsetAt last tokens j = .ok r) ↔ ¬j.UnsetStumbles tokens := by
  induction tokens generalizing j with
  | nil =>
    refine iff_of_true ?_ id
    rw [unsetAt]
    split_ifs with hcontains
    · obtain ⟨w, hw⟩ := Option.isSome_iff_exists.mp hcontains
      exact Json.exists_eraseMember (Json.isObject_of_find? hw) last
    · exact ⟨j, rfl⟩
  | cons token tokens ih =>
    rw [Json.UnsetStumbles, unsetAt]
    by_cases hstumbles : j.Stumbles token
    · obtain ⟨exn, hdescend⟩ := descend_of_stumbles hstumbles
      rw [hdescend]
      refine iff_of_false ?_ fun h => h (Or.inl hstumbles)
      rintro ⟨r, h⟩
      cases h
    · obtain ⟨next, hdescend⟩ := exists_descend_iff.mpr hstumbles
      rw [hdescend, or_iff_right hstumbles]
      rcases follow_of_descend hdescend with ⟨rfl, hnone⟩ | ⟨s, c, rfl, hsome⟩
      · refine iff_of_true ⟨j, rfl⟩ ?_
        rintro ⟨x, hx, -⟩
        rw [hnone] at hx
        cases hx
      · have hwalk : (∃ x, j.follow token = some x ∧ x.2.UnsetStumbles tokens) ↔
            c.UnsetStumbles tokens := by
          rw [hsome]
          simp only [Option.some.injEq, exists_eq_left']
        rw [hwalk, ← ih]
        simp only [ok_bind]
        constructor
        · rintro ⟨r, h⟩
          obtain ⟨r', hunset, -⟩ := bind_eq_ok_iff.mp h
          exact ⟨r', hunset⟩
        · rintro ⟨r', h⟩
          rw [h]
          exact ⟨j.put s r', rfl⟩

theorem isObject_of_setAt {value r : Json} (hj : j.isObject = true)
    (h : setAt last value tokens j = .ok r) : r.isObject = true := by
  induction tokens generalizing j r with
  | nil =>
    rw [setAt] at h
    split_ifs at h
    · exact Json.isObject_of_setMember h
    · exact Except.ok.inj h ▸ hj
  | cons token tokens ih =>
    obtain ⟨next, hdescend, h⟩ := bind_eq_ok_iff.mp h
    rcases follow_of_descend hdescend with ⟨rfl, -⟩ | ⟨s, c, rfl, -⟩
    · exact ih hj h
    · obtain ⟨r', -, h⟩ := bind_eq_ok_iff.mp h
      rw [← Except.ok.inj h, Json.put_isObject]
      exact hj

theorem isObject_of_unsetAt {r : Json} (hj : j.isObject = true)
    (h : unsetAt last tokens j = .ok r) : r.isObject = true := by
  cases tokens with
  | nil =>
    rw [unsetAt] at h
    split_ifs at h
    · exact Json.isObject_of_eraseMember h
    · exact Except.ok.inj h ▸ hj
  | cons token tokens =>
    obtain ⟨next, hdescend, h⟩ := bind_eq_ok_iff.mp h
    rcases follow_of_descend hdescend with ⟨rfl, -⟩ | ⟨s, c, rfl, -⟩
    · exact Except.ok.inj h ▸ hj
    · obtain ⟨r', -, h⟩ := bind_eq_ok_iff.mp h
      rw [← Except.ok.inj h, Json.put_isObject]
      exact hj

/-! ### The fields of an update -/

/-- One field of an operator. -/
abbrev UpdateField : Type := Bytes × Bytes × Json

/-- One field, worked on. -/
def applyField (data : Json) (x : UpdateField) : Except Exn Json :=
  match operator x.1 with
  | none => .ok data
  | some apply => apply data x.2.1 x.2.2

/-- **A field throws**: its key is a path, and the walk stumbles. -/
def UpdateField.Stumbles (data : Json) (x : UpdateField) : Prop :=
  x.1 = Bytes.ofText "$set" ∧ dot ∈ x.2.1 ∧ data.SetStumbles (pathTokens x.2.1).dropLast ∨
    x.1 = Bytes.ofText "$unset" ∧ dot ∈ x.2.1 ∧ data.UnsetStumbles (pathTokens x.2.1).dropLast

section Fields

variable {data data' : Json} {x : UpdateField}

theorem applyField_eq {op : Bytes} {apply : Json → Bytes → Json → Except Exn Json}
    (h : operator op = some apply) (data : Json) (key : Bytes) (value : Json) :
    applyField data (op, key, value) = apply data key value := by
  rw [applyField, h]

/-- Data that is an object stays one. -/
theorem isObject_of_applyField (hdata : data.isObject = true) (h : applyField data x = .ok data') :
    data'.isObject = true := by
  obtain ⟨op, key, value⟩ := x
  rcases hop : operator op with _ | apply
  · rw [applyField, hop] at h
    exact Except.ok.inj h ▸ hdata
  rw [applyField_eq hop] at h
  rw [operator] at hop
  split_ifs at hop
  · obtain rfl := Option.some.inj hop
    rw [applySet] at h
    split_ifs at h
    · exact isObject_of_setAt hdata h
    · exact Json.isObject_of_setMember h
  · obtain rfl := Option.some.inj hop
    rw [applyUnset] at h
    split_ifs at h
    · exact isObject_of_unsetAt hdata h
    · exact Json.isObject_of_eraseMember h
  · obtain rfl := Option.some.inj hop
    obtain ⟨data₁, hpush, hdata₁, -⟩ := fieldWise_applyPush data key value hdata
    exact Except.ok.inj (hpush.symm.trans h) ▸ hdata₁
  · obtain rfl := Option.some.inj hop
    obtain ⟨data₁, hpull, hdata₁, -⟩ := fieldWise_applyPull data key value hdata
    exact Except.ok.inj (hpull.symm.trans h) ▸ hdata₁

/-- **One field returns** exactly if it does not stumble. -/
theorem exists_applyField_iff (hdata : data.isObject = true) :
    (∃ data', applyField data x = .ok data') ↔ ¬UpdateField.Stumbles data x := by
  obtain ⟨op, key, value⟩ := x
  by_cases hset : op = Bytes.ofText "$set"
  · subst hset
    have hother : Bytes.ofText "$set" ≠ Bytes.ofText "$unset" := by decide
    simp only [applyField, operator_set, applySet, UpdateField.Stumbles, hother, false_and,
      or_false, true_and]
    split_ifs with hdot
    · rw [exists_setAt_iff, and_iff_right hdot]
    · exact iff_of_true (Json.exists_setMember hdata key value) fun h => hdot h.1
  by_cases hunset : op = Bytes.ofText "$unset"
  · subst hunset
    simp only [applyField, operator_unset, applyUnset, UpdateField.Stumbles, hset, false_and,
      false_or, true_and]
    split_ifs with hdot
    · rw [exists_unsetAt_iff, and_iff_right hdot]
    · exact iff_of_true (Json.exists_eraseMember hdata key) fun h => hdot h.1
  · refine iff_of_true ?_ fun h => h.elim (fun h => hset h.1) fun h => hunset h.1
    rw [applyField, operator, if_neg hset, if_neg hunset]
    split_ifs
    · obtain ⟨data', hpush, -⟩ := fieldWise_applyPush data key value hdata
      exact ⟨data', hpush⟩
    · obtain ⟨data', hpull, -⟩ := fieldWise_applyPull data key value hdata
      exact ⟨data', hpull⟩
    · exact ⟨data, rfl⟩

end Fields

/-- **A fold returns** exactly if each of its steps does, from what the steps before it have
made. -/
theorem exists_foldlM_iff {α β : Type} {f : β → α → Except Exn β} {I : β → Prop}
    {Q : β → α → Prop} (hstep : ∀ b a, I b → ((∃ b', f b a = .ok b') ↔ ¬Q b a))
    (hI : ∀ b a b', I b → f b a = .ok b' → I b') {l : List α} {b : β} (hb : I b) :
    (∃ b', l.foldlM f b = .ok b') ↔ ∀ before a after b₁, l = before ++ a :: after →
      before.foldlM f b = .ok b₁ → ¬Q b₁ a := by
  induction l generalizing b with
  | nil =>
    refine iff_of_true ⟨b, rfl⟩ fun before a after b₁ h => ?_
    exact absurd (congrArg List.length h) (by simp)
  | cons a l ih =>
    constructor
    · rintro ⟨b', h⟩ before a' after b₁ hl hbefore
      obtain ⟨b₂, hfirst, hrest⟩ := bind_eq_ok_iff.mp (List.foldlM_cons.symm.trans h)
      cases before with
      | nil =>
        obtain ⟨rfl, rfl⟩ := List.cons.inj hl
        obtain rfl := Except.ok.inj hbefore
        exact (hstep b a hb).mp ⟨b₂, hfirst⟩
      | cons x before =>
        obtain ⟨rfl, rfl⟩ := List.cons.inj hl
        rw [List.foldlM_cons, hfirst] at hbefore
        exact (ih (hI b a b₂ hb hfirst)).mp ⟨b', hrest⟩ before a' after b₁ rfl hbefore
    · intro h
      obtain ⟨b₂, hfirst⟩ := (hstep b a hb).mpr (h [] a l b rfl rfl)
      obtain ⟨b', hrest⟩ := (ih (hI b a b₂ hb hfirst)).mpr fun before a' after b₁ hl hbefore =>
        h (a :: before) a' after b₁ (by rw [hl, List.cons_append])
          (by rw [List.foldlM_cons, hfirst]; exact hbefore)
      exact ⟨b', by rw [List.foldlM_cons, hfirst]; exact hrest⟩

/-! ### Updates -/

/-- The members of an object; other values have none. -/
def Json.members : Json → List (Bytes × Json)
  | object members => members
  | _ => []

/-- **The fields that an update works on**, in the order in which it does. -/
def Json.updateFields (update : Json) : List UpdateField :=
  update.members.flatMap fun x =>
    if (operator x.1).isSome then x.2.members.map fun field => (x.1, field.1, field.2) else []

/-- **An update of the right shape**: an object, and the operands of the operators are objects. -/
def Json.WellShaped (update : Json) : Prop :=
  update.isObject = true ∧
    ∀ x ∈ update.members, (operator x.1).isSome = true → x.2.isObject = true

theorem Json.eq_object_members {j : Json} (h : j.isObject = true) : j = .object j.members := by
  cases j with
  | object members => rfl
  | _ => cases h

/-- One operator works on its fields, one after the other. -/
theorem applyOperator_eq_fields {op : Bytes} {ops : Json}
    (h : (operator op).isSome = true → ops.isObject = true) (data : Json) :
    applyOperator data op ops = (if (operator op).isSome then
      ops.members.map fun field => (op, field.1, field.2) else []).foldlM applyField data := by
  rcases hop : operator op with _ | apply
  · rw [applyOperator, hop]
    rfl
  · have hops := Json.eq_object_members (h (by rw [hop]; rfl))
    rw [Option.isSome_some, if_pos rfl, List.foldlM_map]
    simp only [applyField_eq hop]
    rw [applyOperator, hop]
    simp only
    rw [hops]
    rfl

/-- And so do all operators. -/
theorem foldlM_applyOperator_eq {entries : List (Bytes × Json)}
    (h : ∀ x ∈ entries, (operator x.1).isSome = true → x.2.isObject = true) (data : Json) :
    entries.foldlM (fun data x => applyOperator data x.1 x.2) data =
      (Json.object entries).updateFields.foldlM applyField data := by
  rw [Json.updateFields, Json.members]
  induction entries generalizing data with
  | nil => rfl
  | cons x entries ih =>
    obtain ⟨hone, hrest⟩ := List.forall_mem_cons.mp h
    rw [List.foldlM_cons, List.flatMap_cons, List.foldlM_append, applyOperator_eq_fields hone]
    exact congrArg _ (funext fun data => ih hrest data)

/-- A well-shaped update works on its fields, one after the other. -/
theorem Document.applyUpdate_eq_fields {update : Json} (h : update.WellShaped) (doc : Document) :
    doc.applyUpdate update = (update.updateFields.foldlM applyField doc.data_).map fun data =>
      { doc with data_ := data } := by
  obtain ⟨hobject, hoperands⟩ := h
  cases update with
  | object entries =>
    rw [← @foldlM_applyOperator_eq entries hoperands, applyUpdate, Json.entries, ok_bind]
    generalize entries.foldlM (fun data x => applyOperator data x.1 x.2) doc.data_ = r
    cases r <;> rfl
  | _ => cases hobject

/-- **A well-shaped update returns** exactly if none of its fields stumbles, in the data that the
fields before it have left; a piece of a path that names nothing is not found, unless it throws. -/
theorem Document.returns_iff (doc : Document) {update : Json} (hdata : doc.data_.isObject = true)
    (hupdate : update.WellShaped) :
    ((∃ doc', doc.applyUpdate update = .ok doc') ↔ ∀ before x after data,
      update.updateFields = before ++ x :: after →
        before.foldlM applyField doc.data_ = .ok data → ¬UpdateField.Stumbles data x) ∧
    ∀ token j, Json.follow token j = none →
      (descend token j = .ok none ↔ ¬j.Stumbles token) := by
  refine ⟨?_, fun token j => descend_eq_none_iff⟩
  rw [← exists_foldlM_iff (I := fun data => data.isObject = true)
    (fun data x h => exists_applyField_iff h) (fun data x data' h => isObject_of_applyField h) hdata,
    applyUpdate_eq_fields hupdate]
  refine ⟨fun ⟨doc', h⟩ => ?_, fun ⟨data', h⟩ => ⟨{ doc with data_ := data' }, by rw [h]; rfl⟩⟩
  rcases hfold : update.updateFields.foldlM applyField doc.data_ with exn | data'
  · rw [hfold] at h
    cases h
  · exact ⟨data', rfl⟩

/-- A member of an element is set by a path that is short enough. -/
theorem Document.returns_element : ∃ doc', (⟨[1], .object [(Bytes.ofText "a", .array [.null])]⟩ :
    Document).applyUpdate (updateOf "$set" [(Bytes.ofText "a.0.b", .null)]) = .ok doc' := by
  refine (returns_iff ⟨[1], .object [(Bytes.ofText "a", .array [.null])]⟩ rfl ?_).1.mpr ?_
  · refine ⟨rfl, fun x hx _ => ?_⟩
    obtain rfl := List.mem_singleton.mp hx
    rfl
  · intro before x after data hfields hbefore
    have hwalk : ¬(Json.object [(Bytes.ofText "a", .array [.null])]).SetStumbles
        [Bytes.ofText "a", Bytes.ofText "0"] := by
      rintro (h | h | h)
      · exact h
      · exact absurd h.2 (by decide)
      · exact h
    have hone : [(Bytes.ofText "$set", Bytes.ofText "a.0.b", Json.null)] = before ++ x :: after :=
      hfields
    obtain rfl : before = [] := by
      have hlength := congrArg List.length hone
      simp only [List.length_append, List.length_cons, List.length_nil] at hlength
      exact List.eq_nil_of_length_eq_zero (by omega)
    obtain ⟨rfl, -⟩ := List.cons.inj hone
    obtain rfl := Except.ok.inj hbefore
    rintro (⟨-, -, h⟩ | ⟨h, -⟩)
    · exact hwalk h
    · exact absurd h (by decide)

/-- **A piece that is too long throws**, and so does one that is empty. -/
theorem Document.throws_of_long :
    (∃ exn, (⟨[1], .object [(Bytes.ofText "a", .array [.null])]⟩ : Document).applyUpdate
      (updateOf "$set" [(Bytes.ofText "a.2147483648.b", .null)]) = .error exn) ∧
    ∃ exn, (⟨[1], .object [(Bytes.ofText "a", .array [.null])]⟩ : Document).applyUpdate
      (updateOf "$unset" [(Bytes.ofText "a..b", .null)]) = .error exn :=
  ⟨⟨_, rfl⟩, ⟨_, rfl⟩⟩

end AnuDB
