import AnuDB.JsonText
import AnuDB.Update

/-!
# Strings and doubles through updates

An update moves values about and makes no new scalar, so a property of all strings and doubles
that the data and the update have is one the data still has afterwards
(`AnuDB.Document.allScalars_of_applyUpdate`). Which paths the update follows does not matter: a
piece that leads somewhere is a member that is there.
-/

namespace AnuDB

variable {string : Bytes → Bool} {float : UInt64 → Bool}

/-! ### Members -/

theorem allMembers_set {members : List (Bytes × Json)} {key : Bytes} {value : Json}
    (hkey : string key = true) (hvalue : value.allScalars string float = true)
    (h : allMembers string float members = true) :
    allMembers string float (Assoc.set key value members) = true := by
  refine allMembers_iff.mpr fun x hx => ?_
  rcases Assoc.mem_set hx with rfl | hx
  · exact ⟨hkey, hvalue⟩
  · exact allMembers_iff.mp h x hx

theorem allMembers_erase {members : List (Bytes × Json)} {key : Bytes}
    (h : allMembers string float members = true) :
    allMembers string float (Assoc.erase key members) = true :=
  allMembers_iff.mpr fun x hx => allMembers_iff.mp h x (List.mem_of_mem_filter hx)

namespace Json

/-- A member that is found has the property, and so has its name. -/
theorem allScalars_of_find? {j value : Json} {key : Bytes} (h : j.allScalars string float = true)
    (hfind : j.find? key = some value) :
    string key = true ∧ value.allScalars string float = true := by
  cases j with
  | object members =>
    obtain ⟨before, after, rfl, -⟩ := List.lookup_eq_some_iff.mp hfind
    exact allMembers_iff.mp h (key, value) (by simp)
  | _ => cases hfind

theorem allScalars_of_setMember {j j' value : Json} {key : Bytes} (hkey : string key = true)
    (hvalue : value.allScalars string float = true) (h : j.allScalars string float = true)
    (hset : j.setMember key value = .ok j') : j'.allScalars string float = true := by
  cases j with
  | null =>
    obtain rfl := Except.ok.inj hset
    exact @allMembers_set _ _ [] key value hkey hvalue rfl
  | object members =>
    obtain rfl := Except.ok.inj hset
    exact allMembers_set hkey hvalue h
  | _ => cases hset

theorem allScalars_of_eraseMember {j j' : Json} {key : Bytes} (h : j.allScalars string float = true)
    (herase : j.eraseMember key = .ok j') : j'.allScalars string float = true := by
  cases j with
  | object members =>
    obtain rfl := Except.ok.inj herase
    exact allMembers_erase h
  | _ => cases herase

/-- What an object is iterated over has the property. -/
theorem allScalars_of_entries {j : Json} {entries : List (Bytes × Json)}
    (h : j.allScalars string float = true) (hentries : j.entries = .ok entries) :
    ∀ x ∈ entries, string x.1 = true ∧ x.2.allScalars string float = true := by
  cases j with
  | null =>
    obtain rfl := Except.ok.inj hentries
    exact fun x hx => by cases hx
  | array items =>
    cases items with
    | nil =>
      obtain rfl := Except.ok.inj hentries
      exact fun x hx => by cases hx
    | cons item items => cases hentries
  | object members =>
    obtain rfl := Except.ok.inj hentries
    exact allMembers_iff.mp h
  | _ => cases hentries

end Json

/-! ### Paths -/

/-- One piece of a path leads to a value with the property, and keeps it where another value
with the property is put in its place. -/
theorem allScalars_of_descend {token : Bytes} {current child : Json} {put : Json → Json}
    (h : current.allScalars string float = true)
    (hdescend : descend token current = .ok (some (child, put))) :
    child.allScalars string float = true ∧
      ∀ child', child'.allScalars string float = true → (put child').allScalars string float = true := by
  cases current with
  | array items =>
    rw [descend] at hdescend
    split_ifs at hdescend
    · obtain ⟨index, -, hitem⟩ := bind_eq_ok_iff.mp hdescend
      obtain ⟨item, hget, hput⟩ := Option.map_eq_some_iff.mp (Except.ok.inj hitem)
      obtain ⟨rfl, rfl⟩ := Prod.mk.inj hput
      refine ⟨allItems_iff.mp h item (List.mem_of_getElem? hget), fun child' hchild' => ?_⟩
      refine allItems_iff.mpr fun x hx => ?_
      rcases List.mem_or_eq_of_mem_set hx with hx | rfl
      · exact allItems_iff.mp h x hx
      · exact hchild'
    · cases hdescend
  | object members =>
    obtain ⟨value, hlookup, hput⟩ := Option.map_eq_some_iff.mp (Except.ok.inj hdescend)
    obtain ⟨rfl, rfl⟩ := Prod.mk.inj hput
    obtain ⟨hkey, hvalue⟩ := Json.allScalars_of_find? (j := .object members) h hlookup
    exact ⟨hvalue, fun child' hchild' => allMembers_set hkey hchild' h⟩
  | _ => cases hdescend

theorem allScalars_of_setAt {last : Bytes} {value : Json}
    (hvalue : value.allScalars string float = true) {tokens : List Bytes} {current current' : Json}
    (h : current.allScalars string float = true)
    (hset : setAt last value tokens current = .ok current') :
    current'.allScalars string float = true := by
  induction tokens generalizing current current' with
  | nil =>
    rw [setAt] at hset
    split_ifs at hset with hcontains
    · obtain ⟨v, hv⟩ := Option.isSome_iff_exists.mp hcontains
      exact Json.allScalars_of_setMember (Json.allScalars_of_find? h hv).1 hvalue h hset
    · obtain rfl := Except.ok.inj hset
      exact h
  | cons token tokens ih =>
    rw [setAt] at hset
    obtain ⟨next, hdescend, hset⟩ := bind_eq_ok_iff.mp hset
    rcases next with _ | ⟨child, put⟩
    · exact ih h hset
    · obtain ⟨hchild, hput⟩ := allScalars_of_descend h hdescend
      obtain ⟨child', hrest, hset⟩ := bind_eq_ok_iff.mp hset
      obtain rfl := Except.ok.inj hset
      exact hput child' (ih hchild hrest)

theorem allScalars_of_unsetAt {last : Bytes} {tokens : List Bytes} {current current' : Json}
    (h : current.allScalars string float = true)
    (hunset : unsetAt last tokens current = .ok current') :
    current'.allScalars string float = true := by
  induction tokens generalizing current current' with
  | nil =>
    rw [unsetAt] at hunset
    split_ifs at hunset
    · exact Json.allScalars_of_eraseMember h hunset
    · obtain rfl := Except.ok.inj hunset
      exact h
  | cons token tokens ih =>
    rw [unsetAt] at hunset
    obtain ⟨next, hdescend, hunset⟩ := bind_eq_ok_iff.mp hunset
    rcases next with _ | ⟨child, put⟩
    · obtain rfl := Except.ok.inj hunset
      exact h
    · obtain ⟨hchild, hput⟩ := allScalars_of_descend h hdescend
      obtain ⟨child', hrest, hunset⟩ := bind_eq_ok_iff.mp hunset
      obtain rfl := Except.ok.inj hunset
      exact hput child' (ih hchild hrest)

/-! ### Operators -/

/-- A fold that may throw keeps what each of its steps keeps. -/
theorem of_foldlM_ok {α β : Type} {P : β → Prop} {f : β → α → Except Exn β} {l : List α}
    (hstep : ∀ a ∈ l, ∀ b b', P b → f b a = .ok b' → P b') {b b' : β} (hb : P b)
    (h : l.foldlM f b = .ok b') : P b' := by
  induction l generalizing b with
  | nil =>
    obtain rfl := Except.ok.inj h
    exact hb
  | cons a l ih =>
    rw [List.foldlM_cons] at h
    obtain ⟨b₁, hfirst, hrest⟩ := bind_eq_ok_iff.mp h
    exact ih (fun x hx => hstep x (List.mem_cons_of_mem _ hx))
      (hstep a List.mem_cons_self b b₁ hb hfirst) hrest

section Operators

variable {data data' value : Json} {key : Bytes} (hkey : string key = true)
  (hvalue : value.allScalars string float = true) (h : data.allScalars string float = true)
include hkey hvalue h

theorem allScalars_of_applySet (happly : applySet data key value = .ok data') :
    data'.allScalars string float = true := by
  rw [applySet] at happly
  split_ifs at happly
  · exact allScalars_of_setAt hvalue h happly
  · exact Json.allScalars_of_setMember hkey hvalue h happly

omit hkey hvalue in
theorem allScalars_of_applyUnset (happly : applyUnset data key value = .ok data') :
    data'.allScalars string float = true := by
  rw [applyUnset] at happly
  split_ifs at happly
  · exact allScalars_of_unsetAt h happly
  · exact Json.allScalars_of_eraseMember h happly

theorem allScalars_of_applyPush (happly : applyPush data key value = .ok data') :
    data'.allScalars string float = true := by
  rw [applyPush] at happly
  split at happly
  · exact Json.allScalars_of_setMember hkey hvalue h happly
  · rename_i items hfind
    have hitems := (Json.allScalars_of_find? h hfind).2
    refine @Json.allScalars_of_setMember _ _ _ _ (.array _) _ hkey ?_ h happly
    refine allItems_iff.mpr fun x hx => ?_
    rcases List.mem_append.mp hx with hx | hx
    · exact allItems_iff.mp hitems x hx
    · exact List.mem_singleton.mp hx ▸ hvalue
  · rename_i original _ hfind
    have horiginal := (Json.allScalars_of_find? h hfind).2
    refine @Json.allScalars_of_setMember _ _ _ _ (.array _) _ hkey ?_ h happly
    refine allItems_iff.mpr fun x hx => ?_
    rcases List.mem_pair.mp hx with rfl | rfl
    · exact horiginal
    · exact hvalue

theorem allScalars_of_applyPull (happly : applyPull data key value = .ok data') :
    data'.allScalars string float = true := by
  rw [applyPull] at happly
  split at happly
  · exact Except.ok.inj happly ▸ h
  · rename_i items hfind
    have hitems := (Json.allScalars_of_find? h hfind).2
    refine @Json.allScalars_of_setMember _ _ _ _ (.array _) _ hkey ?_ h happly
    exact allItems_iff.mpr fun x hx => allItems_iff.mp hitems x (List.mem_of_mem_filter hx)
  · split_ifs at happly
    · exact Json.allScalars_of_eraseMember h happly
    · exact Json.allScalars_of_setMember hkey hvalue h happly

end Operators

theorem allScalars_of_applyOperator {data data' ops : Json} {op : Bytes}
    (hops : ops.allScalars string float = true) (h : data.allScalars string float = true)
    (happly : applyOperator data op ops = .ok data') : data'.allScalars string float = true := by
  have hfold {apply : Json → Bytes → Json → Except Exn Json}
      (hone : ∀ {data key value data'}, string key = true → value.allScalars string float = true →
        data.allScalars string float = true → apply data key value = .ok data' →
          data'.allScalars string float = true)
      (hrun : (ops.entries >>= fun entries =>
        entries.foldlM (fun data x => apply data x.1 x.2) data) = .ok data') :
      data'.allScalars string float = true := by
    obtain ⟨entries, hentries, hrun⟩ := bind_eq_ok_iff.mp hrun
    have hall := Json.allScalars_of_entries hops hentries
    exact of_foldlM_ok (P := fun data => data.allScalars string float = true)
      (fun x hx b b' hb hbb' => hone (hall x hx).1 (hall x hx).2 hb hbb') h hrun
  rw [applyOperator, operator] at happly
  split_ifs at happly
  · exact hfold allScalars_of_applySet happly
  · exact @hfold applyUnset (fun _ _ => allScalars_of_applyUnset) happly
  · exact hfold allScalars_of_applyPush happly
  · exact hfold allScalars_of_applyPull happly
  · exact Except.ok.inj happly ▸ h

/-- **An update makes no new scalar.** -/
theorem Document.allScalars_of_applyUpdate {doc doc' : Document} {update : Json}
    (hupdate : update.allScalars string float = true)
    (h : doc.data_.allScalars string float = true) (happly : doc.applyUpdate update = .ok doc') :
    doc'.data_.allScalars string float = true := by
  obtain ⟨entries, hentries, happly⟩ := bind_eq_ok_iff.mp happly
  obtain ⟨data, hfold, happly⟩ := bind_eq_ok_iff.mp happly
  obtain rfl := Except.ok.inj happly
  have hall := Json.allScalars_of_entries hupdate hentries
  exact of_foldlM_ok (P := fun data => data.allScalars string float = true)
    (fun x hx b b' hb hbb' => allScalars_of_applyOperator (hall x hx).2 hb hbb') h hfold

end AnuDB
