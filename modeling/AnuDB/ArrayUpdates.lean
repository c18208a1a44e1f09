import AnuDB.Update

/-!
# Pushing and pulling

`$push` and `$pull` work on one field of the data at a time, and look at nothing but that field:
each is a function of the value of the field (`AnuDB.FieldWise`), so an operator with several
fields does to each of them what it does to that field alone.

Values that are pushed one after the other accumulate, but the first value of a field that is
not there becomes the field itself: if that value is an array, the others are appended to it
(`AnuDB.Document.pushAll_eq`). Pulling replaces a value that is not equal to the one pulled by
that value, where the sibling branch for arrays only removes, and takes values that are
unordered with it out of arrays (`AnuDB.Document.pulls_iff`).
-/

namespace AnuDB

/-! ### One field at a time -/

/-- **An operator that works on one field**: what the field becomes is a function of the operand
and of what the field was, and the other fields stay. -/
def FieldWise (apply : Json → Bytes → Json → Except Exn Json)
    (change : Json → Option Json → Option Json) : Prop :=
  ∀ (data : Json) (key : Bytes) (value : Json), data.isObject = true →
    ∃ data', apply data key value = .ok data' ∧ data'.isObject = true ∧
      data'.find? key = change value (data.find? key) ∧
      ∀ g, g ≠ key → data'.find? g = data.find? g

/-- **Several fields are worked on as each of them is.** -/
theorem FieldWise.foldlM {apply : Json → Bytes → Json → Except Exn Json}
    {change : Json → Option Json → Option Json} (h : FieldWise apply change)
    {fields : List (Bytes × Json)} (hnodup : (fields.map Prod.fst).Nodup) {data : Json}
    (hdata : data.isObject = true) :
    ∃ data', fields.foldlM (fun data x => apply data x.1 x.2) data = .ok data' ∧
      data'.isObject = true ∧ ∀ g, data'.find? g =
        (fields.lookup g).elim (data.find? g) fun value => change value (data.find? g) := by
  induction fields generalizing data with
  | nil => exact ⟨data, rfl, hdata, fun g => rfl⟩
  | cons x fields ih =>
    obtain ⟨key, value⟩ := x
    obtain ⟨hkey, hnodup⟩ := List.nodup_cons.mp hnodup
    obtain ⟨data₁, happly, hdata₁, hfield, hother⟩ := h data key value hdata
    obtain ⟨data', hfold, hdata', hfind⟩ := ih hnodup hdata₁
    refine ⟨data', ?_, hdata', fun g => ?_⟩
    · rw [List.foldlM_cons, happly, ok_bind, hfold]
    · rw [hfind g, List.lookup_cons]
      by_cases hg : g = key
      · -- the field is not among the later ones
        subst hg
        have hlookup : fields.lookup g = none := by
          rw [List.lookup_eq_none_iff]
          intro y hy
          exact bne_iff_ne.mpr fun heq => hkey (List.mem_map.mpr ⟨y, hy, heq.symm⟩)
        rw [hlookup, beq_self_eq_true]
        exact hfield
      · rw [beq_eq_false_iff_ne.mpr hg, hother g hg]

/-- An update that consists of one operator. -/
def updateOf (op : String) (fields : List (Bytes × Json)) : Json :=
  .object [(Bytes.ofText op, .object fields)]

theorem operator_set : operator (Bytes.ofText "$set") = some applySet := if_pos rfl

theorem operator_unset : operator (Bytes.ofText "$unset") = some applyUnset := by
  rw [operator, if_neg (by decide), if_pos rfl]

theorem operator_push : operator (Bytes.ofText "$push") = some applyPush := by
  rw [operator, if_neg (by decide), if_neg (by decide), if_pos rfl]

theorem operator_pull : operator (Bytes.ofText "$pull") = some applyPull := by
  rw [operator, if_neg (by decide), if_neg (by decide), if_neg (by decide), if_pos rfl]

/-- What an update of one operator does. -/
theorem Document.applyUpdate_updateOf {op : String}
    {apply : Json → Bytes → Json → Except Exn Json} (hop : operator (Bytes.ofText op) = some apply)
    (doc : Document) (fields : List (Bytes × Json)) :
    doc.applyUpdate (updateOf op fields) =
      (fields.foldlM (fun data x => apply data x.1 x.2) doc.data_).map fun data =>
        { doc with data_ := data } := by
  simp only [applyUpdate, updateOf, Json.entries, ok_bind, List.foldlM_cons, List.foldlM_nil,
    applyOperator, hop, bind_pure]
  generalize fields.foldlM (fun data x => apply data x.1 x.2) doc.data_ = r
  cases r <;> rfl

/-! ### Pushing -/

/-- What a pushed value makes of a field. -/
def pushOnto (value : Json) : Option Json → Option Json
  | none => some value
  | some (.array items) => some (.array (items ++ [value]))
  | some original => some (.array [original, value])

/-- What pulling a value makes of a field. -/
def pullFrom (value : Json) : Option Json → Option Json
  | none => none
  | some (.array items) => some (.array (items.filter fun item => item.ne value))
  | some current => if current.eq value then none else some value

/-- Setting a member is a change of that field. -/
theorem exists_data_of_setMember {data value : Json} (hdata : data.isObject = true) (key : Bytes) :
    ∃ data', data.setMember key value = .ok data' ∧ data'.isObject = true ∧
      data'.find? key = some value ∧ ∀ g, g ≠ key → data'.find? g = data.find? g := by
  obtain ⟨data', hset⟩ := Json.exists_setMember hdata key value
  exact ⟨data', hset, Json.isObject_of_setMember hset, Json.find?_of_setMember hset,
    fun g hg => Json.find?_of_setMember_of_ne hset hg⟩

theorem fieldWise_applyPush : FieldWise applyPush pushOnto := by
  intro data key value hdata
  rw [applyPush]
  rcases hfield : data.find? key with _ | w
  · exact exists_data_of_setMember hdata key
  · cases w with
    | array items => exact exists_data_of_setMember hdata key
    | _ => exact exists_data_of_setMember hdata key

theorem fieldWise_applyPull : FieldWise applyPull pullFrom := by
  intro data key value hdata
  -- a field that is no array is erased or set
  have hscalar (w : Json) : ∃ data',
      (if w.eq value then data.eraseMember key else data.setMember key value) = .ok data' ∧
        data'.isObject = true ∧ data'.find? key = (if w.eq value then none else some value) ∧
        ∀ g, g ≠ key → data'.find? g = data.find? g := by
    split_ifs
    · obtain ⟨data', herase⟩ := Json.exists_eraseMember hdata key
      exact ⟨data', herase, Json.isObject_of_eraseMember herase, Json.find?_of_eraseMember herase,
        fun g hg => Json.find?_of_eraseMember_of_ne herase hg⟩
    · exact exists_data_of_setMember hdata key
  rw [applyPull]
  rcases hfield : data.find? key with _ | w
  · exact ⟨data, rfl, hdata, hfield, fun g _ => rfl⟩
  · cases w with
    | array items => exact exists_data_of_setMember hdata key
    | _ => exact hscalar _

/-! ### Values pushed one after the other -/

/-- Values pushed onto a field one after the other, each by an update of its own. -/
def Document.pushAll (doc : Document) (f : Bytes) (values : List Json) : Except Exn Document :=
  values.foldlM (fun doc value => doc.applyUpdate (updateOf "$push" [(f, value)])) doc

/-- **What accumulates**: the values go to the end of an array, and after a value that is no
array. Where there is no field the first value is the field, so that the others go to the end of
it if it is an array. -/
def accumulated : Option Json → List Json → List Json
  | some (.array items), values => items ++ values
  | some original, values => original :: values
  | none, .array items :: values => items ++ values
  | none, values => values

/-- One push. -/
theorem Document.push_eq (doc : Document) (hdoc : doc.data_.isObject = true) (f : Bytes)
    (value : Json) : ∃ data', doc.applyUpdate (updateOf "$push" [(f, value)]) =
      .ok { doc with data_ := data' } ∧ data'.isObject = true ∧
        data'.find? f = pushOnto value (doc.data_.find? f) ∧
        ∀ g, g ≠ f → data'.find? g = doc.data_.find? g := by
  obtain ⟨data', happly, hdata'⟩ := fieldWise_applyPush doc.data_ f value hdoc
  refine ⟨data', ?_, hdata'⟩
  rw [applyUpdate_updateOf operator_push, List.foldlM_cons, happly]
  rfl

/-- Pushing onto an array. -/
theorem Document.pushAll_of_array (doc : Document) (hdoc : doc.data_.isObject = true) {f : Bytes}
    {items : List Json} (hfield : doc.data_.find? f = some (.array items)) (values : List Json) :
    ∃ data', doc.pushAll f values = .ok { doc with data_ := data' } ∧ data'.isObject = true ∧
      data'.find? f = some (.array (items ++ values)) ∧
      ∀ g, g ≠ f → data'.find? g = doc.data_.find? g := by
  induction values generalizing doc items with
  | nil => exact ⟨doc.data_, rfl, hdoc, hfield.trans (by rw [List.append_nil]), fun g _ => rfl⟩
  | cons value values ih =>
    obtain ⟨data₁, hpush, hdata₁, hone, hother⟩ := push_eq doc hdoc f value
    rw [hfield] at hone
    obtain ⟨data', hrest, hdata', hall, hothers⟩ := ih { doc with data_ := data₁ } hdata₁ hone
    refine ⟨data', ?_, hdata', ?_, fun g hg => (hothers g hg).trans (hother g hg)⟩
    · rw [pushAll, List.foldlM_cons, hpush, ok_bind]
      exact hrest
    · rw [hall, List.append_assoc, List.singleton_append]

/-- **Values that are pushed one after the other, two at least, accumulate**: the field is an
array of them in their order, after what was there, and the other fields are as they were. -/
theorem Document.pushAll_eq (doc : Document) (hdoc : doc.data_.isObject = true) (f : Bytes)
    (v₁ v₂ : Json) (values : List Json) :
    ∃ data', doc.pushAll f (v₁ :: v₂ :: values) = .ok { doc with data_ := data' } ∧
      data'.isObject = true ∧
      data'.find? f = some (.array (accumulated (doc.data_.find? f) (v₁ :: v₂ :: values))) ∧
      ∀ g, g ≠ f → data'.find? g = doc.data_.find? g := by
  obtain ⟨data₁, hpush₁, hdata₁, hone, hother₁⟩ := push_eq doc hdoc f v₁
  obtain ⟨data₂, hpush₂, hdata₂, htwo, hother₂⟩ :=
    push_eq { doc with data_ := data₁ } hdata₁ f v₂
  -- after two values the field is an array, whatever it was
  have harray : ∃ items, data₂.find? f = some (.array items) ∧
      items ++ values = accumulated (doc.data_.find? f) (v₁ :: v₂ :: values) := by
    rw [htwo, hone]
    rcases doc.data_.find? f with _ | w
    · cases v₁ <;> exact ⟨_, rfl, by simp [accumulated]⟩
    · cases w <;> exact ⟨_, rfl, by simp [accumulated]⟩
  obtain ⟨items, hitems, heq⟩ := harray
  obtain ⟨data', hrest, hdata', hall, hothers⟩ :=
    pushAll_of_array { doc with data_ := data₂ } hdata₂ hitems values
  refine ⟨data', ?_, hdata', ?_, fun g hg => ?_⟩
  · rw [pushAll, List.foldlM_cons, hpush₁, ok_bind, List.foldlM_cons, hpush₂, ok_bind]
    exact hrest
  · rw [hall, heq]
  · exact (hothers g hg).trans ((hother₂ g hg).trans (hother₁ g hg))

theorem Document.pushAll_two : ∃ data', (⟨Bytes.ofText "a", .object []⟩ : Document).pushAll
    (Bytes.ofText "f") [.integer 1, .integer 2] = .ok ⟨Bytes.ofText "a", data'⟩ ∧
      data'.find? (Bytes.ofText "f") = some (.array [.integer 1, .integer 2]) := by
  obtain ⟨data', hpush, -, hfield, -⟩ := pushAll_eq ⟨Bytes.ofText "a", .object []⟩ rfl
    (Bytes.ofText "f") (.integer 1) (.integer 2) []
  exact ⟨data', hpush, hfield⟩

/-- **An array that is pushed first is taken for the field**: the second value goes into it. -/
theorem Document.pushAll_array_first :
    ∃ data', (⟨Bytes.ofText "a", .object []⟩ : Document).pushAll (Bytes.ofText "f")
      [.array [.integer 1], .integer 2] = .ok ⟨Bytes.ofText "a", data'⟩ ∧
        data'.find? (Bytes.ofText "f") ≠ some (.array [.array [.integer 1], .integer 2]) :=
  ⟨_, rfl, fun h => by cases h⟩

/-! ### Pulling -/

/-- **What pulling should make of a field**: equal elements are removed from an array, an equal
value is removed, and anything else is left. -/
def removedFrom (value : Json) : Json → Option Json
  | .array items => some (.array (items.filter fun item => !item.eq value))
  | current => if current.eq value then none else some current

/-- **Pulling only removes**: of every field that is named what should be removed, and nothing of
the others. -/
def OnlyRemoves (data : Json) (pulls : List (Bytes × Json)) (data' : Json) : Prop :=
  data'.isObject = true ∧ ∀ g, data'.find? g =
    (pulls.lookup g).elim (data.find? g) fun value => (data.find? g).bind (removedFrom value)

/-- Whether a value is pulled from a field as it should be: no element of an array is unordered
with it, and a value that is no array is equal to it, or the same. -/
def PullsCleanly (value : Json) : Json → Prop
  | .array items => ∀ item ∈ items, comparesUnordered item value = false
  | current => current.eq value = true ∨ current = value

/-- A NaN is equal to nothing. -/
theorem Json.eq_of_comparesUnordered {v w : Json} (h : comparesUnordered v w = true) :
    v.eq w = false := by
  cases v with
  | float a =>
    cases w with
    | float b =>
      rw [Json.eq, floatEq]
      rcases Bool.or_eq_true_iff.mp h with h | h <;> simp [h]
    | integer b =>
      have hfinite : ¬Binary64.Finite a := by
        have := of_decide_eq_true (h : isNaN a = true)
        rw [Binary64.Finite]
        omega
      rw [Json.eq, intFloatEq, decide_eq_false hfinite, Bool.false_and]
    | _ => cases h
  | integer a =>
    cases w with
    | float b =>
      have hfinite : ¬Binary64.Finite b := by
        have := of_decide_eq_true (h : isNaN b = true)
        rw [Binary64.Finite]
        omega
      rw [Json.eq, intFloatEq, decide_eq_false hfinite, Bool.false_and]
    | _ => cases h
  | _ => cases h

/-- A field is pulled from as it should be exactly if it is pulled from cleanly. -/
theorem pullFrom_eq_iff {value current : Json} :
    pullFrom value (some current) = removedFrom value current ↔ PullsCleanly value current := by
  have hscalar : (if current.eq value then none else some value) =
      (if current.eq value then none else some current) ↔
        current.eq value = true ∨ current = value := by
    split_ifs with heq
    · exact iff_of_true rfl (Or.inl heq)
    · rw [Option.some.injEq, eq_comm]
      exact (or_iff_right heq).symm
  cases current with
  | array items =>
    rw [pullFrom, removedFrom, PullsCleanly, Option.some.injEq, Json.array.injEq]
    refine ⟨fun h item hitem => ?_, fun h => List.filter_congr fun item hitem => ?_⟩
    · -- what is unordered with the value is not equal to it, and yet it is gone
      by_contra hunordered
      rw [Bool.not_eq_false] at hunordered
      have hkept : item ∈ items.filter fun item => !item.eq value :=
        List.mem_filter.mpr ⟨hitem, by rw [Json.eq_of_comparesUnordered hunordered]; rfl⟩
      rw [← h, List.mem_filter, Json.ne, hunordered] at hkept
      exact absurd hkept.2 (by simp)
    · rw [Json.ne, h item hitem, Bool.not_false, Bool.true_and]
  | _ => exact hscalar

/-- **What `$pull` does**, always without throwing; and when it only removes: exactly if every
field that is named, and is there, is pulled from cleanly. -/
theorem Document.pulls_iff (doc : Document) (hdoc : doc.data_.isObject = true)
    {pulls : List (Bytes × Json)} (hpulls : (pulls.map Prod.fst).Nodup) :
    ∃ data', doc.applyUpdate (updateOf "$pull" pulls) = .ok { doc with data_ := data' } ∧
      (OnlyRemoves doc.data_ pulls data' ↔ ∀ f value current, pulls.lookup f = some value →
        doc.data_.find? f = some current → PullsCleanly value current) := by
  obtain ⟨data', hfold, hdata', hfind⟩ := fieldWise_applyPull.foldlM hpulls hdoc
  refine ⟨data', ?_, fun h f value current hf hcurrent => ?_, fun h => ⟨hdata', fun g => ?_⟩⟩
  · rw [applyUpdate_updateOf operator_pull, hfold]
    rfl
  · have hfield := h.2 f
    rw [hfind f, hf, hcurrent] at hfield
    exact pullFrom_eq_iff.mp hfield
  · rw [hfind g]
    rcases hg : pulls.lookup g with _ | value
    · rfl
    · rcases hcurrent : doc.data_.find? g with _ | current
      · rfl
      · exact pullFrom_eq_iff.mpr (h g value current hg hcurrent)

/-- A string is pulled from an array. -/
theorem Document.pulls_text : ∃ data', (⟨Bytes.ofText "a", .object
    [(Bytes.ofText "f", .array [.string [1], .integer 2])]⟩ : Document).applyUpdate
      (updateOf "$pull" [(Bytes.ofText "f", .string [1])]) = .ok ⟨Bytes.ofText "a", data'⟩ ∧
    OnlyRemoves (.object [(Bytes.ofText "f", .array [.string [1], .integer 2])])
      [(Bytes.ofText "f", .string [1])] data' := by
  obtain ⟨data', happly, hiff⟩ := pulls_iff
    ⟨Bytes.ofText "a", .object [(Bytes.ofText "f", .array [.string [1], .integer 2])]⟩ rfl
    (show ([(Bytes.ofText "f", Json.string [1])].map Prod.fst).Nodup by decide)
  refine ⟨data', happly, hiff.mpr fun g value current hg hcurrent => ?_⟩
  rw [List.lookup_cons] at hg
  split at hg
  · obtain rfl := Option.some.inj hg
    obtain rfl : g = Bytes.ofText "f" := by simpa using ‹(g == Bytes.ofText "f") = true›
    obtain rfl : Json.array [.string [1], .integer 2] = current := Option.some.inj hcurrent
    intro item hitem
    rcases List.mem_pair.mp hitem with rfl | rfl <;> rfl
  · cases hg

/-- **A value is pulled into the document**, where another one was. -/
theorem Document.not_onlyRemoves_of_other : ∃ data', (⟨Bytes.ofText "a", .object
    [(Bytes.ofText "f", .string [1])]⟩ : Document).applyUpdate (updateOf "$pull"
      [(Bytes.ofText "f", .string [2])]) = .ok ⟨Bytes.ofText "a", data'⟩ ∧
    ¬OnlyRemoves (.object [(Bytes.ofText "f", .string [1])]) [(Bytes.ofText "f", .string [2])]
      data' := by
  refine ⟨_, rfl, fun h => ?_⟩
  have hfield := h.2 (Bytes.ofText "f")
  exact absurd (congrArg (Option.map fun v => v.getString.toOption) hfield) (by decide +kernel)

end AnuDB
