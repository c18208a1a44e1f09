import AnuDB.ArrayUpdates

/-!
# Paths into a document

A dotted key names a place in the data, piece by piece: a member by its name, an element by its
number. This file says what a path means (`AnuDB.Json.locate`, the location of the member it
names, if all its pieces lead somewhere), what it is to replace the value at a location
(`AnuDB.Json.replaceAt`), and what `$set` does with a path.

`$set` does not stop at a piece that leads nowhere: it goes on with the next piece from where it
stands. So it changes the member that is named if there is one, and otherwise it leaves the data
alone only if the walk does not end, by chance, at a value that has a member of the last name
(`AnuDB.FieldPath.Strays`, `AnuDB.Document.set_iff`).
-/

namespace AnuDB

/-! ### Objects in key order -/

mutual

/-- Whether the members of every object in a value are in the order of their names, each once,
as the code's maps have them. -/
def Json.sorted : Json → Bool
  | .array items => sortedItems items
  | .object members => decide ((members.map Prod.fst).Pairwise (· < ·)) && sortedMembers members
  | _ => true

/-- The same, of the elements of an array. -/
def sortedItems : List Json → Bool
  | [] => true
  | item :: items => item.sorted && sortedItems items

/-- The same, of the values of an object. -/
def sortedMembers : List (Bytes × Json) → Bool
  | [] => true
  | (_, value) :: members => value.sorted && sortedMembers members

end

theorem sortedItems_iff {items : List Json} :
    sortedItems items = true ↔ ∀ item ∈ items, item.sorted = true := by
  induction items with
  | nil => exact iff_of_true rfl fun item hitem => by cases hitem
  | cons item items ih => rw [sortedItems, Bool.and_eq_true, ih, List.forall_mem_cons]

theorem sortedMembers_iff {members : List (Bytes × Json)} :
    sortedMembers members = true ↔ ∀ x ∈ members, x.2.sorted = true := by
  induction members with
  | nil => exact iff_of_true rfl fun x hx => by cases hx
  | cons x members ih => rw [sortedMembers, Bool.and_eq_true, ih, List.forall_mem_cons]

theorem Json.sorted_object {members : List (Bytes × Json)} :
    (Json.object members).sorted = true ↔
      (members.map Prod.fst).Pairwise (· < ·) ∧ ∀ x ∈ members, x.2.sorted = true := by
  rw [sorted, Bool.and_eq_true, decide_eq_true_eq, sortedMembers_iff]

namespace Json

/-! ### Locations -/

/-- One step into a value. -/
inductive Step where
  /-- To the member of a name. -/
  | member (name : Bytes) : Step
  /-- To the element of a number. -/
  | element (index : ℕ) : Step
  deriving DecidableEq

/-- A place in a value: the steps that lead there. -/
abbrev Location : Type := List Step

/-- The value a step leads to. -/
def child (s : Step) (j : Json) : Option Json :=
  match s, j with
  | .member name, object members => members.lookup name
  | .element index, array items => items[index]?
  | _, _ => none

/-- The value with another one where a step leads to. -/
def put (s : Step) (j value : Json) : Json :=
  match s, j with
  | .member name, object members => object (Assoc.set name value members)
  | .element index, array items => array (items.set index value)
  | _, j => j

/-- **The value with another one at a location.** -/
def replaceAt : Location → Json → Json → Json
  | [], _, value => value
  | s :: l, j, value => match j.child s with
    | some c => j.put s (replaceAt l c value)
    | none => j

theorem child_put {s : Step} {j c : Json} (h : j.child s = some c) (value : Json) :
    (j.put s value).child s = some value := by
  cases s with
  | member name =>
    cases j with
    | object members => exact Assoc.lookup_set_self name value members
    | _ => cases h
  | element index =>
    cases j with
    | array items =>
      have hlt : index < items.length := (List.getElem?_eq_some_iff.mp h).1
      exact List.getElem?_set_self hlt
    | _ => cases h

theorem put_injective {s : Step} {j c a b : Json} (h : j.child s = some c)
    (hput : j.put s a = j.put s b) : a = b := by
  have ha := child_put h a
  rw [hput, child_put h b] at ha
  exact (Option.some.inj ha).symm

/-- A value that is put where it is changes nothing. -/
theorem put_child {s : Step} {j c : Json} (hj : j.sorted = true) (h : j.child s = some c) :
    j.put s c = j := by
  cases s with
  | member name =>
    cases j with
    | object members => exact congrArg object (Assoc.set_of_lookup (sorted_object.mp hj).1 h)
    | _ => cases h
  | element index =>
    cases j with
    | array items =>
      obtain ⟨hlt, rfl⟩ := List.getElem?_eq_some_iff.mp h
      exact congrArg array (List.set_getElem_self hlt)
    | _ => cases h

theorem sorted_of_child {s : Step} {j c : Json} (hj : j.sorted = true) (h : j.child s = some c) :
    c.sorted = true := by
  cases s with
  | member name =>
    cases j with
    | object members =>
      obtain ⟨before, after, rfl, -⟩ := List.lookup_eq_some_iff.mp h
      exact (sorted_object.mp hj).2 (name, c) (by simp)
    | _ => cases h
  | element index =>
    cases j with
    | array items => exact sortedItems_iff.mp hj c (List.mem_of_getElem? h)
    | _ => cases h

/-! ### Pieces of a path -/

/-- **Where one piece of a path leads**: to a member by its name, to an element by its decimal
number. -/
def follow (token : Bytes) (j : Json) : Option (Step × Json) :=
  match j with
  | object members => (members.lookup token).map (Step.member token, ·)
  | array items =>
    if token ≠ [] ∧ allDigits token = true then
      (items[Bytes.ofDecimal token]?).map (Step.element (Bytes.ofDecimal token), ·)
    else none
  | _ => none

/-- The value that pieces lead to, if each of them leads somewhere. -/
def resolve : List Bytes → Json → Option Json
  | [], j => some j
  | token :: tokens, j => (j.follow token).bind fun x => resolve tokens x.2

/-- **The location of the member that a path names**: all its pieces but the last lead somewhere,
to an object that has a member of the last one. -/
def locate (last : Bytes) : List Bytes → Json → Option Location
  | [], j => if j.contains last then some [.member last] else none
  | token :: tokens, j =>
    (j.follow token).bind fun x => (locate last tokens x.2).map (x.1 :: ·)

/-- Where a walk ends that skips the pieces that lead nowhere. -/
def landing : List Bytes → Json → Json
  | [], j => j
  | token :: tokens, j => landing tokens ((j.follow token).elim j Prod.snd)

theorem child_of_follow {token : Bytes} {j c : Json} {s : Step} (h : j.follow token = some (s, c)) :
    j.child s = some c := by
  cases j with
  | object members =>
    obtain ⟨v, hv, hx⟩ := Option.map_eq_some_iff.mp h
    obtain ⟨rfl, rfl⟩ := Prod.mk.inj hx
    exact hv
  | array items =>
    rw [follow] at h
    split_ifs at h
    obtain ⟨v, hv, hx⟩ := Option.map_eq_some_iff.mp h
    obtain ⟨rfl, rfl⟩ := Prod.mk.inj hx
    exact hv
  | _ => cases h

/-- A path names a member only if the pieces before it resolve. -/
theorem locate_of_resolve_none {last : Bytes} {tokens : List Bytes} {j : Json}
    (h : j.resolve tokens = none) : j.locate last tokens = none := by
  induction tokens generalizing j with
  | nil => cases h
  | cons token tokens ih =>
    rw [locate]
    rcases hfollow : j.follow token with _ | x
    · rfl
    · rw [resolve, hfollow] at h
      exact congrArg (Option.map (x.1 :: ·)) (ih h)

end Json

/-! ### Keys that are paths -/

/-- **A key of an update**: a name without a dot, or the pieces of a path, none of them empty. -/
structure FieldPath where
  /-- The pieces before the last. -/
  parents : List Bytes
  /-- The last piece, or the name. -/
  last : Bytes
  /-- No piece has a dot. -/
  dotFree : ∀ t ∈ parents ++ [last], dot ∉ t
  /-- The pieces of a path are not empty. -/
  nonempty : parents ≠ [] → ∀ t ∈ parents ++ [last], t ≠ []

namespace FieldPath

variable {p : FieldPath}

/-- The key, as it is written. -/
def key (p : FieldPath) : Bytes := [dot].intercalate (p.parents ++ [p.last])

theorem splitOn_key (p : FieldPath) : p.key.splitOn dot = p.parents ++ [p.last] :=
  List.splitOn_intercalate dot p.dotFree (by simp)

theorem dot_mem_key_iff : dot ∈ p.key ↔ p.parents ≠ [] := by
  refine ⟨fun h hnil => ?_, fun h => ?_⟩
  · have hkey : p.key = p.last := by
      rw [key, hnil]
      simp
    exact p.dotFree p.last (by simp) (hkey ▸ h)
  · by_contra hdot
    have hsplit := p.splitOn_key
    rw [List.splitOn_eq_singleton hdot] at hsplit
    have hlength := congrArg List.length hsplit
    simp only [List.length_singleton, List.length_append, Nat.right_eq_add,
      List.length_eq_zero_iff] at hlength
    exact h hlength

/-- The pieces of a path are taken apart again. -/
theorem pathTokens_key (h : p.parents ≠ []) : pathTokens p.key = p.parents ++ [p.last] := by
  rw [pathTokens, splitOn_key, if_neg]
  rw [List.getLast?_concat, Option.some.injEq]
  exact p.nonempty h p.last (by simp)

theorem applySet_key (h : p.parents ≠ []) (data value : Json) :
    applySet data p.key value = setAt p.last value p.parents data := by
  rw [applySet, if_pos (dot_mem_key_iff.mpr h), pathTokens_key h]
  simp only [List.getLastD_concat, List.dropLast_concat]

/-- The location of the member a key names. -/
def locate (p : FieldPath) (data : Json) : Option Json.Location := data.locate p.last p.parents

/-- **The walk of a path strays**: some piece leads nowhere, and the walk that skips it ends at an
object that has a member of the last name, with a value other than the one to be set. -/
def Strays (p : FieldPath) (value data : Json) : Prop :=
  data.resolve p.parents = none ∧
    ∃ w, (data.landing p.parents).find? p.last = some w ∧ w ≠ value

end FieldPath

/-! ### Walks -/

/-- A piece that leads nowhere, and one that leads to a value that can be replaced there. -/
theorem follow_of_descend {token : Bytes} {j : Json} {next : Option (Json × (Json → Json))}
    (h : descend token j = .ok next) :
    next = none ∧ j.follow token = none ∨
      ∃ s c, next = some (c, j.put s) ∧ j.follow token = some (s, c) := by
  cases j with
  | array items =>
    rw [descend] at h
    rw [Json.follow]
    by_cases hdigits : allDigits token = true
    · rw [if_pos hdigits, stoi] at h
      split_ifs at h with hbad
      · cases h
      · obtain rfl := Except.ok.inj h
        rw [if_pos ⟨fun hnil => hbad (Or.inl hnil), hdigits⟩]
        rcases hitem : items[Bytes.ofDecimal token]? with _ | item
        · refine Or.inl ⟨?_, rfl⟩
          exact congrArg (Option.map _) hitem
        · refine Or.inr ⟨.element (Bytes.ofDecimal token), item, ?_, rfl⟩
          exact congrArg (Option.map _) hitem
    · rw [if_neg hdigits] at h
      rw [if_neg fun hand => hdigits hand.2]
      exact Or.inl ⟨(Except.ok.inj h).symm, rfl⟩
  | object members =>
    obtain rfl := Except.ok.inj h
    rw [Json.follow]
    rcases members.lookup token with _ | value
    · exact Or.inl ⟨rfl, rfl⟩
    · exact Or.inr ⟨.member token, value, rfl, rfl⟩
  | _ => exact Or.inl ⟨(Except.ok.inj h).symm, rfl⟩

/-- A member that is there is set. -/
theorem setAt_nil {last : Bytes} {value j r : Json} (h : setAt last value [] j = .ok r) :
    r = (j.locate last []).elim j fun l => j.replaceAt l value := by
  rw [setAt] at h
  rw [Json.locate]
  split_ifs at h ⊢ with hcontains
  · cases j with
    | object members =>
      obtain ⟨w, hw⟩ := Option.isSome_iff_exists.mp hcontains
      have hchild : (Json.object members).child (.member last) = some w := hw
      obtain rfl := Except.ok.inj h
      simp only [Option.elim_some, Json.replaceAt, hchild]
      rfl
    | _ => cases hcontains
  · exact (Except.ok.inj h).symm

/-- **Where the pieces resolve, the member that is named is replaced**, if there is one. -/
theorem setAt_of_resolve {last : Bytes} {value : Json} {tokens : List Bytes} {j r parent : Json}
    (hj : j.sorted = true) (hresolve : j.resolve tokens = some parent)
    (h : setAt last value tokens j = .ok r) :
    r = (j.locate last tokens).elim j fun l => j.replaceAt l value := by
  induction tokens generalizing j r with
  | nil => exact setAt_nil h
  | cons token tokens ih =>
    obtain ⟨next, hdescend, h⟩ := bind_eq_ok_iff.mp h
    obtain ⟨x, hfollow, hrest⟩ := Option.bind_eq_some_iff.mp hresolve
    rcases follow_of_descend hdescend with ⟨-, hnone⟩ | ⟨s, c, rfl, hsome⟩
    · rw [hnone] at hfollow
      cases hfollow
    · obtain rfl : (s, c) = x := Option.some.inj (hsome.symm.trans hfollow)
      obtain ⟨r', hset, h⟩ := bind_eq_ok_iff.mp h
      obtain rfl := Except.ok.inj h
      have hchild := Json.child_of_follow hsome
      have hr' := ih (Json.sorted_of_child hj hchild) hrest hset
      rw [Json.locate, hsome, Option.bind_some, hr']
      rcases c.locate last tokens with _ | l
      · exact Json.put_child hj hchild
      · simp only [Option.map_some, Option.elim_some, Json.replaceAt, hchild]

/-- **A walk leaves the value as it is** exactly if it does not end where another value is set. -/
theorem setAt_eq_self_iff {last : Bytes} {value : Json} {tokens : List Bytes} {j r : Json}
    (hj : j.sorted = true) (h : setAt last value tokens j = .ok r) :
    r = j ↔ ∀ w, (j.landing tokens).find? last = some w → w = value := by
  induction tokens generalizing j r with
  | nil =>
    rw [setAt] at h
    rw [Json.landing]
    split_ifs at h with hcontains
    · cases j with
      | object members =>
        obtain ⟨w, hw⟩ := Option.isSome_iff_exists.mp hcontains
        have hchild : (Json.object members).child (.member last) = some w := hw
        obtain rfl := Except.ok.inj h
        rw [hw]
        refine ⟨fun heq w' hw' => ?_, fun heq => ?_⟩
        · obtain rfl := Option.some.inj hw'
          exact (Json.put_injective hchild (heq.trans (Json.put_child hj hchild).symm)).symm
        · obtain rfl := heq w rfl
          exact Json.put_child hj hchild
      | _ => cases hcontains
    · refine iff_of_true (Except.ok.inj h).symm fun w hw => absurd ?_ hcontains
      exact Option.isSome_iff_exists.mpr ⟨w, hw⟩
  | cons token tokens ih =>
    obtain ⟨next, hdescend, h⟩ := bind_eq_ok_iff.mp h
    rw [Json.landing]
    rcases follow_of_descend hdescend with ⟨rfl, hnone⟩ | ⟨s, c, rfl, hsome⟩
    · rw [hnone]
      exact ih hj h
    · obtain ⟨r', hset, h⟩ := bind_eq_ok_iff.mp h
      obtain rfl := Except.ok.inj h
      have hchild := Json.child_of_follow hsome
      rw [hsome]
      refine Iff.trans ⟨fun heq => ?_, fun heq => ?_⟩ (ih (Json.sorted_of_child hj hchild) hset)
      · exact Json.put_injective hchild (heq.trans (Json.put_child hj hchild).symm)
      · rw [heq]
        exact Json.put_child hj hchild

/-! ### Setting a member by its path -/

/-- **What `$set` does with a path**, where it returns: the member that the path names is
replaced, or nothing is changed if there is none – exactly if the walk does not stray. -/
theorem Document.set_iff {doc doc' : Document} {p : FieldPath} {value : Json}
    (hp : p.parents ≠ []) (hdata : doc.data_.sorted = true)
    (h : doc.applyUpdate (updateOf "$set" [(p.key, value)]) = .ok doc') :
    doc' = { doc with data_ := (p.locate doc.data_).elim doc.data_ fun l =>
      doc.data_.replaceAt l value } ↔ ¬p.Strays value doc.data_ := by
  rw [applyUpdate_updateOf operator_set, List.foldlM_cons, FieldPath.applySet_key hp] at h
  rcases hset : setAt p.last value p.parents doc.data_ with exn | data
  · rw [hset] at h
    cases h
  · rw [hset] at h
    obtain rfl : { doc with data_ := data } = doc' := Except.ok.inj h
    rw [Document.mk.injEq, eq_self, true_and, FieldPath.locate, FieldPath.Strays]
    rcases hresolve : doc.data_.resolve p.parents with _ | parent
    · rw [Json.locate_of_resolve_none hresolve, Option.elim_none, setAt_eq_self_iff hdata hset]
      simp only [true_and, not_exists, not_and, not_not]
    · exact iff_of_true (setAt_of_resolve hdata hresolve hset) fun hstrays => by cases hstrays.1

/-- The path `a.b`. -/
def pathAB : FieldPath := ⟨[Bytes.ofText "a"], Bytes.ofText "b", by decide, by decide⟩

/-- A member of a member is set. -/
theorem Document.set_nested :
    (⟨[1], .object [(Bytes.ofText "a", .object [(Bytes.ofText "b", .null)])]⟩ :
      Document).applyUpdate (updateOf "$set" [(pathAB.key, .integer 1)]) =
        .ok ⟨[1], .object [(Bytes.ofText "a", .object [(Bytes.ofText "b", .integer 1)])]⟩ := by
  have hset : (⟨[1], .object [(Bytes.ofText "a", .object [(Bytes.ofText "b", .null)])]⟩ :
      Document).applyUpdate (updateOf "$set" [(pathAB.key, .integer 1)]) = .ok ⟨[1], _⟩ := rfl
  rw [hset]
  exact congrArg Except.ok ((set_iff (by decide) (by decide +kernel) hset).mpr fun h => by cases h.1)

/-- **A member with the name of the last piece is set elsewhere** where there is nothing at the
path. -/
theorem Document.set_strays : ∃ doc' : Document,
    (⟨[1], .object [(Bytes.ofText "b", .string [1])]⟩ : Document).applyUpdate
      (updateOf "$set" [(pathAB.key, .string [2])]) = .ok doc' ∧
    pathAB.locate (.object [(Bytes.ofText "b", .string [1])]) = none ∧
    doc'.data_ ≠ .object [(Bytes.ofText "b", .string [1])] := by
  refine ⟨_, rfl, rfl, fun h => ?_⟩
  have hfield := congrArg (fun j => (j.find? (Bytes.ofText "b")).map
    fun v => v.getString.toOption) h
  exact absurd hfield (by decide +kernel)

end AnuDB
