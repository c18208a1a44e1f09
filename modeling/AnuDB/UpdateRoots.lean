import AnuDB.Lib.Local
import AnuDB.Stumbles

/-!
# What an update works on

An update names the members of the data it works on, and paths into them. `$push` and `$pull` work
on the member of a key, whatever dots are in it, and `$set` and `$unset` on the one of a key without
a dot. A path of `$unset` begins at the member of its first piece; a path of `$set` may begin at the
member of any of its pieces, as pieces that lead nowhere are skipped
(`AnuDB.UpdateField.roots`).

Nothing else of the data is changed, and nothing else matters: with any operators and any shapes of
operands, whether an update throws and what it makes of its roots can be told from them
(`AnuDB.Document.applyUpdate_congr`). So updates without roots in common do not get into each
other's way.
-/

namespace AnuDB

variable {data : Json} {last : Bytes} {tokens : List Bytes}

/-! ### Roots -/

/-- **The members of the data that a field of an update works on.** -/
def UpdateField.roots (x : UpdateField) : List Bytes :=
  let tokens := pathTokens x.2.1
  if x.2.1.contains dot && x.1 == Bytes.ofText "$set" then tokens.getLastD [] :: tokens.dropLast
  else if x.2.1.contains dot && x.1 == Bytes.ofText "$unset" then
    [tokens.dropLast.headD (tokens.getLastD [])]
  else [x.2.1]

theorem UpdateField.roots_eq {x : UpdateField} : x.roots =
    if dot ∈ x.2.1 ∧ x.1 = Bytes.ofText "$set" then
      (pathTokens x.2.1).getLastD [] :: (pathTokens x.2.1).dropLast
    else if dot ∈ x.2.1 ∧ x.1 = Bytes.ofText "$unset" then
      [(pathTokens x.2.1).dropLast.headD ((pathTokens x.2.1).getLastD [])]
    else [x.2.1] := by
  simp only [roots, Bool.and_eq_true, List.contains_iff_mem, beq_iff_eq]

/-- **The members that an update works on.** -/
def Json.roots (update : Json) : List Bytes := update.updateFields.flatMap UpdateField.roots

/-! ### Data, member by member -/

/-- An action on data keeps to the members of these names. -/
abbrev KeepsToMembers (names : Set Bytes) (f : Json → Option Json) : Prop :=
  Local.KeepsTo Json.find? (fun data => data.isObject = true) names f

/-- **What works on one field keeps to its member.** -/
theorem FieldWise.keepsTo {apply : Json → Bytes → Json → Except Exn Json}
    {change : Json → Option Json → Option Json} (h : FieldWise apply change) (key : Bytes)
    (value : Json) : KeepsToMembers {key} fun data => (apply data key value).toOption where
  good {data data'} hdata hdata' := by
    obtain ⟨data₁, happly, hobject, -⟩ := h data key value hdata
    rw [happly] at hdata'
    exact Option.some.inj hdata' ▸ hobject
  frame {data data'} hdata hdata' name hname := by
    obtain ⟨data₁, happly, -, -, hother⟩ := h data key value hdata
    rw [happly] at hdata'
    obtain rfl := Option.some.inj hdata'
    exact hother name hname
  agree {data₁ data₂ data'} h₁ h₂ heq hdata' := by
    obtain ⟨data₃, happly₁, -, hfield₁, -⟩ := h data₁ key value h₁
    obtain ⟨data₄, happly₂, -, hfield₂, -⟩ := h data₂ key value h₂
    rw [happly₁] at hdata'
    obtain rfl := Option.some.inj hdata'
    refine ⟨data₄, by rw [happly₂]; rfl, ?_⟩
    rintro name rfl
    rw [hfield₁, hfield₂, heq rfl]

theorem fieldWise_setMember : FieldWise Json.setMember fun value _ => some value :=
  fun _ key _ hdata => exists_data_of_setMember hdata key

theorem fieldWise_eraseMember :
    FieldWise (fun data key _ => data.eraseMember key) fun _ _ => none := by
  intro data key value hdata
  obtain ⟨data', herase⟩ := Json.exists_eraseMember hdata key
  exact ⟨data', herase, Json.isObject_of_eraseMember herase, Json.find?_of_eraseMember herase,
    fun g hg => Json.find?_of_eraseMember_of_ne herase hg⟩

/-! ### Walks from the root -/

/-- The member of a piece is replaced, by what the walk makes of it. -/
theorem keepsTo_walked (token : Bytes) (r : Option Json) :
    KeepsToMembers {token} fun data => r.bind fun r => (data.setMember token r).toOption := by
  cases r with
  | none => exact Local.keepsTo_none
  | some r => exact fieldWise_setMember.keepsTo token r

/-- The end of a walk at the root. -/
theorem keepsTo_end {f : Json → Except Exn Json}
    (hf : KeepsToMembers {last} fun data => (f data).toOption) :
    KeepsToMembers {last} fun data =>
      (if data.contains last then f data else .ok data : Except Exn Json).toOption := by
  refine (Local.keepsTo_look (k := last) (f := fun (v : Option Json) (data : Json) =>
    if v.isSome then (f data).toOption else some data) (Set.mem_singleton last) fun v => ?_).congr
    fun data _ => ?_
  · cases v with
    | none => exact Local.keepsTo_some
    | some v => exact hf
  · rw [Json.contains]
    split_ifs <;> rfl

/-- A walk of `$set` from the root. -/
def setFrom (last : Bytes) (value : Json) (token : Bytes) (tokens : List Bytes) :
    Option Json → Json → Option Json
  | none, data => (setAt last value tokens data).toOption
  | some c, data => (setAt last value tokens c).toOption.bind fun r =>
    (data.setMember token r).toOption

/-- A walk of `$unset` from the root. -/
def unsetFrom (last : Bytes) (token : Bytes) (tokens : List Bytes) :
    Option Json → Json → Option Json
  | none, data => some data
  | some c, data => (unsetAt last tokens c).toOption.bind fun r =>
    (data.setMember token r).toOption

/-- The piece is skipped, or the walk goes on in the member. -/
theorem setAt_cons_of_object {value : Json} {token : Bytes} (hdata : data.isObject = true) :
    (setAt last value (token :: tokens) data).toOption =
      setFrom last value token tokens (data.find? token) data := by
  cases data with
  | object members =>
    rw [setAt, descend, Json.find?]
    rcases members.lookup token with _ | c
    · rfl
    · simp only [Option.map_some, ok_bind, setFrom]
      rcases setAt last value tokens c with exn | r <;> rfl
  | _ => cases hdata

theorem unsetAt_cons_of_object {token : Bytes} (hdata : data.isObject = true) :
    (unsetAt last (token :: tokens) data).toOption =
      unsetFrom last token tokens (data.find? token) data := by
  cases data with
  | object members =>
    rw [unsetAt, descend, Json.find?]
    rcases members.lookup token with _ | c
    · rfl
    · simp only [Option.map_some, ok_bind, unsetFrom]
      rcases unsetAt last tokens c with exn | r <;> rfl
  | _ => cases hdata

theorem keepsTo_setAt (last : Bytes) (value : Json) (tokens : List Bytes) :
    KeepsToMembers {name | name ∈ last :: tokens} fun data =>
      (setAt last value tokens data).toOption := by
  induction tokens with
  | nil =>
    refine (keepsTo_end (fieldWise_setMember.keepsTo last value)).mono ?_
    rintro name rfl
    exact List.mem_cons_self
  | cons token tokens ih =>
    refine (Local.keepsTo_look (k := token) (f := setFrom last value token tokens)
      (List.mem_cons_of_mem _ List.mem_cons_self) fun v => ?_).congr fun data hdata =>
      setAt_cons_of_object hdata
    cases v with
    | none =>
      -- the piece is skipped
      refine ih.mono fun name hname => ?_
      rcases List.mem_cons.mp hname with rfl | hname
      · exact List.mem_cons_self
      · exact List.mem_cons_of_mem _ (List.mem_cons_of_mem _ hname)
    | some c =>
      refine (keepsTo_walked token (setAt last value tokens c).toOption).mono ?_
      rintro name rfl
      exact List.mem_cons_of_mem _ List.mem_cons_self

theorem keepsTo_unsetAt (last : Bytes) (tokens : List Bytes) :
    KeepsToMembers {tokens.headD last} fun data => (unsetAt last tokens data).toOption := by
  cases tokens with
  | nil => exact keepsTo_end (fieldWise_eraseMember.keepsTo last .null)
  | cons token tokens =>
    refine (Local.keepsTo_look (k := token) (f := unsetFrom last token tokens)
      (Set.mem_singleton token) fun v => ?_).congr fun data hdata => unsetAt_cons_of_object hdata
    cases v with
    | none => exact Local.keepsTo_some
    | some c => exact keepsTo_walked token (unsetAt last tokens c).toOption

/-! ### Updates -/

/-- **A field of an update keeps to its roots**, whatever its operator is. -/
theorem UpdateField.keepsTo (x : UpdateField) :
    KeepsToMembers {name | name ∈ UpdateField.roots x} fun data => (applyField data x).toOption := by
  obtain ⟨op, key, value⟩ := x
  rcases hop : operator op with _ | apply
  · simp only [applyField, hop]
    exact Local.keepsTo_some
  simp only [applyField_eq hop]
  rw [operator] at hop
  split_ifs at hop with hset hunset hpush hpull <;> obtain rfl := Option.some.inj hop
  · by_cases hdot : dot ∈ key
    · simp only [applySet, UpdateField.roots_eq, if_pos hdot, if_pos (And.intro hdot hset)]
      exact keepsTo_setAt _ value _
    · simp only [applySet, UpdateField.roots_eq, hdot, false_and, if_false,
        List.mem_singleton, Set.ofPred_eq_eq_singleton]
      exact fieldWise_setMember.keepsTo key value
  · by_cases hdot : dot ∈ key
    · simp only [applyUnset, UpdateField.roots_eq, if_pos hdot, hset, and_false, if_false,
        if_pos (And.intro hdot hunset), List.mem_singleton, Set.ofPred_eq_eq_singleton]
      exact keepsTo_unsetAt _ _
    · simp only [applyUnset, UpdateField.roots_eq, hdot, false_and, if_false,
        List.mem_singleton, Set.ofPred_eq_eq_singleton]
      exact fieldWise_eraseMember.keepsTo key value
  · simp only [UpdateField.roots_eq, hset, hunset, and_false, if_false, List.mem_singleton,
      Set.ofPred_eq_eq_singleton]
    exact fieldWise_applyPush.keepsTo key value
  · simp only [UpdateField.roots_eq, hset, hunset, and_false, if_false, List.mem_singleton,
      Set.ofPred_eq_eq_singleton]
    exact fieldWise_applyPull.keepsTo key value

theorem toOption_bind {α β : Type} (x : Except Exn α) (f : α → Except Exn β) :
    (x >>= f).toOption = x.toOption.bind fun a => (f a).toOption := by
  cases x <;> rfl

theorem toOption_foldlM {α β : Type} (f : β → α → Except Exn β) (l : List α) (b : β) :
    (l.foldlM f b).toOption = l.foldlM (fun b a => (f b a).toOption) b := by
  induction l generalizing b with
  | nil => rfl
  | cons a l ih =>
    rw [List.foldlM_cons, List.foldlM_cons, toOption_bind]
    exact congrArg _ (funext ih)

/-- What is iterated over, unless that throws, are the members. -/
theorem Json.eq_members_of_entries {j : Json} {l : List (Bytes × Json)} (h : j.entries = .ok l) :
    l = j.members := by
  rcases j with _ | _ | _ | _ | _ | (_ | ⟨item, items⟩) | members
  all_goals first | exact (Except.ok.inj h).symm | cases h

/-- An operator keeps to what holds the roots of its fields. -/
theorem keepsTo_applyOperator {names : Set Bytes} (op : Bytes) (ops : Json)
    (h : (operator op).isSome = true → ∀ field ∈ ops.members,
      ∀ name ∈ UpdateField.roots (op, field.1, field.2), name ∈ names) :
    KeepsToMembers names fun data => (applyOperator data op ops).toOption := by
  rcases hop : operator op with _ | apply
  · simp only [applyOperator, hop]
    exact Local.keepsTo_some
  rcases hentries : ops.entries with exn | entries
  · simp only [applyOperator, hop, hentries]
    exact Local.keepsTo_none
  · obtain rfl := Json.eq_members_of_entries hentries
    simp only [applyOperator, hop, hentries, ok_bind, toOption_foldlM]
    refine Local.keepsTo_foldlM fun field hfield => ?_
    have hkeeps := UpdateField.keepsTo (op, field.1, field.2)
    simp only [applyField_eq hop] at hkeeps
    exact hkeeps.mono (h (by rw [hop]; rfl) field hfield)

/-- **Data, updated**, unless that throws. -/
def Json.updated (update data : Json) : Option Json :=
  ((⟨[], data⟩ : Document).applyUpdate update).toOption.map Document.data_

/-- The id of the document is of no matter. -/
theorem Document.applyUpdate_toOption (id : Bytes) (data update : Json) :
    ((⟨id, data⟩ : Document).applyUpdate update).toOption =
      (update.updated data).map (Document.mk id) := by
  rw [Json.updated, applyUpdate, applyUpdate]
  rcases update.entries with exn | entries
  · rfl
  · simp only [ok_bind]
    generalize entries.foldlM (fun data x => applyOperator data x.1 x.2) data = r
    cases r <;> rfl

theorem Document.exists_applyUpdate_iff {doc : Document} {update data : Json} :
    (∃ doc', doc.applyUpdate update = .ok doc' ∧ doc'.data_ = data) ↔
      update.updated doc.data_ = some data := by
  have happly := applyUpdate_toOption doc.id_ doc.data_ update
  rcases h : doc.applyUpdate update with exn | doc'
  · rw [h] at happly
    rw [Option.map_eq_none_iff.mp happly.symm]
    simp
  · rw [h] at happly
    obtain ⟨data', hdata', rfl⟩ := Option.map_eq_some_iff.mp happly.symm
    rw [hdata']
    simp

/-- **An update keeps to its roots.** -/
theorem Json.keepsTo_updated (update : Json) :
    KeepsToMembers {name | name ∈ update.roots} update.updated := by
  refine Local.KeepsTo.congr (f := fun data => (update.entries.toOption).bind fun entries =>
    entries.foldlM (fun data x => (applyOperator data x.1 x.2).toOption) data) ?_ fun data _ => ?_
  · rcases hentries : update.entries with exn | entries
    · exact Local.keepsTo_none
    · obtain rfl := Json.eq_members_of_entries hentries
      refine Local.keepsTo_foldlM fun x hx => keepsTo_applyOperator x.1 x.2 ?_
      intro hop field hfield name hname
      refine List.mem_flatMap.mpr ⟨(x.1, field.1, field.2), ?_, hname⟩
      refine List.mem_flatMap.mpr ⟨x, hx, ?_⟩
      rw [if_pos hop]
      exact List.mem_map_of_mem hfield
  · rw [updated, Document.applyUpdate]
    rcases update.entries with exn | entries
    · rfl
    · change _ = entries.foldlM (fun data x => (applyOperator data x.1 x.2).toOption) data
      rw [← toOption_foldlM]
      simp only [ok_bind]
      generalize entries.foldlM (fun data x => applyOperator data x.1 x.2) data = r
      cases r <;> rfl

/-- **An update neither changes nor sees anything but its roots.** -/
theorem Document.applyUpdate_congr {doc₁ doc₂ : Document} {update : Json}
    (h₁ : doc₁.data_.isObject = true) (h₂ : doc₂.data_.isObject = true)
    (h : ∀ name ∈ update.roots, doc₂.data_.find? name = doc₁.data_.find? name) :
    ((∃ doc₁', doc₁.applyUpdate update = .ok doc₁') ↔
      ∃ doc₂', doc₂.applyUpdate update = .ok doc₂') ∧
    ∀ doc₁' doc₂', doc₁.applyUpdate update = .ok doc₁' → doc₂.applyUpdate update = .ok doc₂' →
      ∀ name, (name ∈ update.roots → doc₂'.data_.find? name = doc₁'.data_.find? name) ∧
        (name ∉ update.roots → doc₁'.data_.find? name = doc₁.data_.find? name) := by
  have hkeeps := update.keepsTo_updated
  have hseen {doc doc' : Document} (hdoc : doc.data_.isObject = true)
      (hdoc' : doc'.data_.isObject = true)
      (heq : ∀ name ∈ update.roots, doc'.data_.find? name = doc.data_.find? name)
      (hreturns : ∃ doc₁, doc.applyUpdate update = .ok doc₁) :
      ∃ doc₁, doc'.applyUpdate update = .ok doc₁ := by
    obtain ⟨doc₁, hdoc₁⟩ := hreturns
    obtain ⟨data, hdata, -⟩ := hkeeps.agree hdoc hdoc' (fun name hname => heq name hname)
      (exists_applyUpdate_iff.mp ⟨doc₁, hdoc₁, rfl⟩)
    obtain ⟨doc₂, hdoc₂, -⟩ := exists_applyUpdate_iff.mpr hdata
    exact ⟨doc₂, hdoc₂⟩
  refine ⟨⟨hseen h₁ h₂ h, hseen h₂ h₁ fun name hname => (h name hname).symm⟩, ?_⟩
  intro doc₁' doc₂' h₁' h₂' name
  have hupdated₁ := exists_applyUpdate_iff.mp ⟨doc₁', h₁', rfl⟩
  have hupdated₂ := exists_applyUpdate_iff.mp ⟨doc₂', h₂', rfl⟩
  refine ⟨fun hname => ?_, fun hname => hkeeps.frame h₁ hupdated₁ name hname⟩
  obtain ⟨data, hdata, hroots⟩ := hkeeps.agree h₁ h₂ (fun name hname => h name hname) hupdated₁
  obtain rfl := Option.some.inj (hdata.symm.trans hupdated₂)
  exact hroots hname

/-- A member is pushed onto, whatever else there is. -/
theorem Document.applyUpdate_congr_push :
    ∃ doc₁' doc₂', (⟨[1], .object [([97], .array [])]⟩ : Document).applyUpdate
        (updateOf "$push" [([97], .integer 7)]) = .ok doc₁' ∧
      (⟨[2], .object [([97], .array []), ([98], .null)]⟩ : Document).applyUpdate
        (updateOf "$push" [([97], .integer 7)]) = .ok doc₂' ∧
      doc₂'.data_.find? [97] = doc₁'.data_.find? [97] := by
  have hroots : (updateOf "$push" [([97], .integer 7)]).roots = [[97]] := by decide
  have hsame : ∀ name ∈ (updateOf "$push" [([97], .integer 7)]).roots,
      (Json.object [([97], .array []), ([98], .null)]).find? name =
        (Json.object [([97], .array [])]).find? name := by
    rw [hroots]
    intro name hname
    obtain rfl := List.mem_singleton.mp hname
    rfl
  have hcongr := @applyUpdate_congr ⟨[1], .object [([97], .array [])]⟩
    ⟨[2], .object [([97], .array []), ([98], .null)]⟩ _ rfl rfl hsame
  obtain ⟨doc₁', hdoc₁'⟩ : ∃ doc₁', (⟨[1], .object [([97], .array [])]⟩ : Document).applyUpdate
      (updateOf "$push" [([97], .integer 7)]) = .ok doc₁' := ⟨_, rfl⟩
  obtain ⟨doc₂', hdoc₂'⟩ := hcongr.1.mp ⟨doc₁', hdoc₁'⟩
  refine ⟨doc₁', doc₂', hdoc₁', hdoc₂', (hcongr.2 doc₁' doc₂' hdoc₁' hdoc₂' [97]).1 ?_⟩
  rw [hroots]
  exact List.mem_singleton_self _

end AnuDB
