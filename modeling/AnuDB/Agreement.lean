import AnuDB.JsonText
import AnuDB.Lib.Marks
import AnuDB.Msgpack
import Mathlib.Data.Countable.Basic
import Mathlib.Data.Set.Finite.Basic
import Mathlib.Logic.Equiv.List

/-!
# Is any library left out?

`AnuDB.Msgpack` asks that every value is read back, and `AnuDB.JsonText` that every value whose
strings are UTF-8 has a text. There are more values than a library has a form for: integers beyond
sixty-four bits, and objects whose members are repeated or in no order. The library the code is
linked with never comes across one of those.

So it would do to ask for the values it has, and nothing is gained or lost by asking for all. A
library with the laws for the values of some kind is, on them and on all byte strings a run may hand
to it, one with the laws for every value (`AnuDB.Msgpack.exists_agrees`,
`AnuDB.JsonText.For.exists_agrees`): the other values are written as byte strings that no run comes
across.
-/

namespace AnuDB

namespace Msgpack

theorem to_msgpack_injective (codec : Msgpack) : Function.Injective codec.to_msgpack := by
  intro j j' h
  exact Except.ok.inj ((codec.from_to j).symm.trans (h ▸ codec.from_to j'))

/-- There are no more values than byte strings. -/
theorem countable_json : Countable Json := by
  have hbytes : Function.Injective (List.map UInt8.toNat) :=
    List.map_injective_iff.mpr fun _ _ => UInt8.toNat.inj
  exact (hbytes.comp standard.to_msgpack_injective).countable

/-- A number for every value. -/
noncomputable def number : Json → ℕ := (@Countable.exists_injective_nat Json countable_json).choose

theorem number_injective : Function.Injective number :=
  (@Countable.exists_injective_nat Json countable_json).choose_spec

/-- **No library is left out for the values it has no form for.** One that reads back the values of
a kind agrees with a serialisation of all values, on the values of the kind and on all byte strings
but those of a set that has no end and holds none of their encodings. A run hands finitely many
byte strings to the library, and leaves such a set. -/
theorem exists_agrees {Kind : Json → Prop} {to_msgpack : Json → Bytes}
    {from_msgpack : Bytes → Except Exn Json}
    (from_to : ∀ j, Kind j → from_msgpack (to_msgpack j) = .ok j) {spare : Set Bytes}
    (hspare : spare.Infinite) (hfree : ∀ j, Kind j → to_msgpack j ∉ spare) :
    ∃ codec : Msgpack, (∀ j, Kind j → codec.to_msgpack j = to_msgpack j) ∧
      ∀ s ∉ spare, codec.from_msgpack s = from_msgpack s := by
  classical
  -- the other values are written as byte strings of the set
  obtain ⟨mark, hmark, hmem⟩ : ∃ mark : Json → Bytes, Function.Injective mark ∧
      ∀ j, mark j ∈ spare :=
    ⟨fun j => hspare.natEmbedding spare (number j),
      Subtype.val_injective.comp ((hspare.natEmbedding spare).injective.comp number_injective),
      fun j => (hspare.natEmbedding spare (number j)).2⟩
  refine ⟨⟨fun j => if Kind j then to_msgpack j else mark j,
    fun s => if h : ∃ j, mark j = s then .ok h.choose else from_msgpack s, fun j => ?_⟩,
    fun j hj => if_pos hj, fun s hs => dif_neg ?_⟩
  · by_cases hj : Kind j
    · have hnot : ¬∃ j', mark j' = to_msgpack j := fun ⟨j', hj'⟩ => hfree j hj (hj' ▸ hmem j')
      rw [if_pos hj, dif_neg hnot, from_to j hj]
    · have hsome : ∃ j', mark j' = mark j := ⟨j, rfl⟩
      rw [if_neg hj, dif_pos hsome, hmark hsome.choose_spec]
  · rintro ⟨j, rfl⟩
    exact hs (hmem j)

end Msgpack

/-! ### Texts -/

theorem notMem_arrayText {entries : List (Json × Bytes)} (h : ∀ x ∈ entries, 255 ∉ x.2) :
    255 ∉ arrayText (entries.map Prod.snd) := by
  have hbody := @Marks.notMem_intercalate _ _ 255 (Bytes.ofText ",\n") (by decide) entries h
  simp only [arrayText, List.mem_append, not_or]
  exact ⟨⟨by decide, hbody⟩, by decide⟩

namespace JsonText

/-- **Texts of the values of a kind.** -/
structure For (Kind : Json → Prop) where
  /-- `json::parse`. -/
  parse : Bytes → Except Bytes Json
  /-- `operator>>`. -/
  read : Bytes → Except Bytes Json
  /-- `dump()`. -/
  dump : Json → Except Bytes Bytes
  /-- `dump(4)`. -/
  dumpIndented : Json → Except Bytes Bytes
  isUtf8_of_parse : ∀ {s j}, parse s = .ok j → j.isUtf8 = true
  dump_ok_iff : ∀ {j}, Kind j → ((∃ s, dump j = .ok s) ↔ j.isUtf8 = true)
  dumpIndented_ok_iff : ∀ {j}, Kind j → ((∃ s, dumpIndented j = .ok s) ↔ j.isUtf8 = true)
  /-- A dump is UTF-8. -/
  valid_of_dump : ∀ {j s}, Kind j → dump j = .ok s → Utf8.Valid s
  /-- The same of an indented dump. -/
  valid_of_dumpIndented : ∀ {j s}, Kind j → dumpIndented j = .ok s → Utf8.Valid s
  valid_of_dump_error : ∀ {j what}, Kind j → dump j = .error what → Utf8.Valid what
  parse_dump : ∀ {j s}, Kind j → j.isClean = true → dump j = .ok s → parse s = .ok j
  read_of_parse : ∀ {s j}, parse s = .ok j → read s = .ok j
  parse_arrayText : ∀ (entries : List (Json × Bytes)),
    (∀ x ∈ entries, Kind x.1 ∧ x.1.isClean = true ∧ dumpIndented x.1 = .ok x.2) →
      parse (arrayText (entries.map Prod.snd)) = .ok (.array (entries.map Prod.fst))

namespace For

variable {Kind : Json → Prop} (library : For Kind) (k : ℕ)

/-- The text of a value of another kind: a run of a byte that UTF-8 does not have. -/
noncomputable def mark (j : Json) : Bytes := List.replicate (Msgpack.number j + k + 1) 255

theorem mark_injective : Function.Injective (mark k) := by
  intro j j' h
  have hlength := congrArg List.length h
  simp only [mark, List.length_replicate] at hlength
  exact Msgpack.number_injective (by omega)

open Classical in
/-- Dumps of all values, from those of a kind. -/
noncomputable def extend (Kind : Json → Prop) (k : ℕ) (dump : Json → Except Bytes Bytes)
    (j : Json) : Except Bytes Bytes :=
  if Kind j then dump j else if j.isUtf8 then .ok (mark k j) else .error []

theorem extend_of_kind {dump : Json → Except Bytes Bytes} {j : Json} (hj : Kind j) :
    extend Kind k dump j = dump j := if_pos hj

theorem extend_eq_ok_iff {dump : Json → Except Bytes Bytes} {j : Json} {s : Bytes}
    (hj : ¬Kind j) : extend Kind k dump j = .ok s ↔ j.isUtf8 = true ∧ s = mark k j := by
  rw [extend, if_neg hj]
  split_ifs with hutf8
  · exact ⟨fun h => ⟨hutf8, (Except.ok.inj h).symm⟩, fun h => h.2 ▸ rfl⟩
  · exact iff_of_false (fun h => by cases h) fun h => hutf8 h.1

/-- An element of an array and its text. -/
def Entry (dump : Json → Except Bytes Bytes) (x : Json × Bytes) : Prop :=
  x.1.isClean = true ∧ dump x.1 = .ok x.2

theorem Entry.eq_mark {x : Json × Bytes} (hx : Entry (extend Kind k library.dumpIndented) x)
    (hplain : ¬(Kind x.1 ∧ Entry library.dumpIndented x)) : x.2 = mark k x.1 := by
  have hkind : ¬Kind x.1 := fun hkind =>
    hplain ⟨hkind, hx.1, (extend_of_kind k hkind).symm.trans hx.2⟩
  exact ((extend_eq_ok_iff k hkind).mp hx.2).2

/-- The texts that a value of another kind has part in, with what they are the texts of. -/
inductive Stands : Bytes → Json → Prop
  | alone {s : Bytes} {j : Json} (hj : ¬Kind j) (hutf8 : j.isUtf8 = true) (hs : s = mark k j) :
    Stands s j
  | among {s : Bytes} {entries : List (Json × Bytes)} (hsome : ∃ x ∈ entries, ¬Kind x.1)
    (hentries : ∀ x ∈ entries, Entry (extend Kind k library.dumpIndented) x)
    (hs : s = arrayText (entries.map Prod.snd)) : Stands s (.array (entries.map Prod.fst))

variable {library} {k}

theorem Stands.isUtf8 {s : Bytes} {j : Json} (h : Stands library k s j) : j.isUtf8 = true := by
  cases h with
  | alone _ hutf8 _ => exact hutf8
  | @among entries _ hentries _ =>
    refine allItems_iff.mpr fun item hitem => ?_
    obtain ⟨x, hx, rfl⟩ := List.mem_map.mp hitem
    exact Json.isUtf8_of_isClean (hentries x hx).1

theorem Stands.isInfix {s : Bytes} {j : Json} (h : Stands library k s j) :
    List.replicate (k + 1) 255 <:+: s := by
  have hmark (j : Json) : List.replicate (k + 1) 255 <:+: mark k j := by
    refine List.IsPrefix.isInfix ⟨List.replicate (Msgpack.number j) 255, ?_⟩
    rw [List.replicate_append_replicate, mark]
    exact congrArg₂ _ (by omega) rfl
  cases h with
  | alone _ _ hs => exact hs ▸ hmark j
  | @among entries hsome hentries hs =>
    obtain ⟨x, hx, hkind⟩ := hsome
    have htext := ((extend_eq_ok_iff k hkind).mp (hentries x hx).2).2
    obtain ⟨p, q, rfl⟩ := List.append_of_mem hx
    refine (hmark x.1).trans
      ⟨Bytes.ofText "[\n" ++ (p.map Prod.snd).flatMap (· ++ Bytes.ofText ",\n"),
        (q.map Prod.snd).flatMap (Bytes.ofText ",\n" ++ ·) ++ Bytes.ofText "\n]", ?_⟩
    rw [hs, arrayText, List.map_append, List.map_cons, Marks.intercalate_append_cons, htext]
    simp only [List.append_assoc]

/-- **A text that another kind has part in stands for one value.** -/
theorem Stands.unique {s : Bytes} {j j' : Json} (h : Stands library k s j)
    (h' : Stands library k s j') : j = j' := by
  have hhead {j : Json} {texts : List Bytes} (h : mark k j = arrayText texts) : False := by
    have hbyte : (255 : UInt8) = 91 := (List.cons.inj h).1
    exact absurd hbyte (by decide)
  cases h with
  | alone _ _ hs =>
    cases h' with
    | alone _ _ hs' => exact mark_injective k (hs.symm.trans hs')
    | among _ _ hs' => exact (hhead (hs.symm.trans hs')).elim
  | @among entries _ hentries hs =>
    cases h' with
    | alone _ _ hs' => exact (hhead (hs'.symm.trans hs)).elim
    | @among entries' _ hentries' hs' =>
      refine congrArg Json.array (@Marks.map_fst_eq_of_intercalate_eq _ _ 255 (Bytes.ofText ",\n")
        (fun x => Kind x.1 ∧ Entry library.dumpIndented x) (fun j => Msgpack.number j + k)
        (by decide) (by decide) ?_ ?_ ?_ _ _ ?_ ?_ ?_)
      · exact fun x hx => Utf8.notMem_of_run (library.valid_of_dumpIndented hx.1 hx.2.2)
      · intro p q hp hq hpq
        have hback := library.parse_arrayText p hp
        rw [arrayText, hpq] at hback
        exact (Json.array.inj (Except.ok.inj (hback.symm.trans (library.parse_arrayText q hq))))
      · exact fun j j' h => Msgpack.number_injective (Nat.add_right_cancel h)
      · exact fun x hx => (hentries x hx).eq_mark
      · exact fun x hx => (hentries' x hx).eq_mark
      · exact List.append_cancel_left (List.append_cancel_right (hs.symm.trans hs'))

variable (library) (k)

open Classical in
/-- Every text is read, from reading those that no value of another kind has part in. -/
noncomputable def widen (read : Bytes → Except Bytes Json) (s : Bytes) : Except Bytes Json :=
  if h : ∃ j, Stands library k s j then .ok h.choose else read s

variable {library} {k} {read : Bytes → Except Bytes Json} {s : Bytes} {j : Json}

theorem widen_of_stands (h : Stands library k s j) : widen library k read s = .ok j := by
  have hsome : ∃ j, Stands library k s j := ⟨j, h⟩
  rw [widen, dif_pos hsome, hsome.choose_spec.unique h]

theorem widen_of_not_isInfix (h : ¬List.replicate (k + 1) 255 <:+: s) :
    widen library k read s = read s :=
  dif_neg fun ⟨_, hstands⟩ => h hstands.isInfix

theorem widen_of_notMem (h : 255 ∉ s) : widen library k read s = read s :=
  widen_of_not_isInfix fun hlong => h (hlong.subset List.mem_cons_self)

theorem exists_stands_or_widen (library : For Kind) (k : ℕ) (s : Bytes) :
    (∃ j, Stands library k s j) ∨ ∀ read, widen library k read s = read s := by
  by_cases hsome : ∃ j, Stands library k s j
  · exact .inl hsome
  · exact .inr fun _ => dif_neg hsome

variable (library) (k)

theorem exists_extend_iff {dump : Json → Except Bytes Bytes}
    (hdump : ∀ {j}, Kind j → ((∃ s, dump j = .ok s) ↔ j.isUtf8 = true)) (j : Json) :
    (∃ s, extend Kind k dump j = .ok s) ↔ j.isUtf8 = true := by
  by_cases hj : Kind j
  · rw [extend_of_kind k hj]
    exact hdump hj
  · simp only [extend_eq_ok_iff k hj, exists_and_left, exists_eq, and_true]

/-- The texts of all values. -/
noncomputable def toJsonText : JsonText where
  parse := widen library k library.parse
  read := widen library k library.read
  dump := extend Kind k library.dump
  dumpIndented := extend Kind k library.dumpIndented
  isUtf8_of_parse {s j} h := by
    rcases exists_stands_or_widen library k s with ⟨j', hstands⟩ | hread
    · exact Except.ok.inj ((widen_of_stands hstands).symm.trans h) ▸ hstands.isUtf8
    · exact library.isUtf8_of_parse ((hread _).symm.trans h)
  dump_ok_iff := exists_extend_iff k library.dump_ok_iff
  dumpIndented_ok_iff := exists_extend_iff k library.dumpIndented_ok_iff
  valid_of_dump_error {j what} h := by
    by_cases hj : Kind j
    · exact library.valid_of_dump_error hj ((extend_of_kind k hj).symm.trans h)
    · rw [extend, if_neg hj] at h
      split_ifs at h
      exact Except.error.inj h ▸ Utf8.valid_nil
  parse_dump {j s} hclean h := by
    by_cases hj : Kind j
    · rw [extend_of_kind k hj] at h
      rw [widen_of_notMem (Utf8.notMem_of_run (library.valid_of_dump hj h))]
      exact library.parse_dump hj hclean h
    · obtain ⟨hutf8, hs⟩ := (extend_eq_ok_iff k hj).mp h
      exact widen_of_stands (.alone hj hutf8 hs)
  read_of_parse {s j} h := by
    rcases exists_stands_or_widen library k s with ⟨j', hstands⟩ | hread
    · exact (widen_of_stands hstands).trans ((widen_of_stands hstands).symm.trans h)
    · exact (hread _).trans (library.read_of_parse ((hread _).symm.trans h))
  parse_arrayText entries h := by
    by_cases hsome : ∃ x ∈ entries, ¬Kind x.1
    · exact widen_of_stands (.among hsome h rfl)
    · have hall (x) (hx : x ∈ entries) :
          Kind x.1 ∧ x.1.isClean = true ∧ library.dumpIndented x.1 = .ok x.2 := by
        have hj : Kind x.1 := by_contra fun hj => hsome ⟨x, hx, hj⟩
        exact ⟨hj, (h x hx).1, (extend_of_kind k hj).symm.trans (h x hx).2⟩
      rw [widen_of_notMem (notMem_arrayText fun x hx =>
        Utf8.notMem_of_run (library.valid_of_dumpIndented (hall x hx).1 (hall x hx).2.2))]
      exact library.parse_arrayText entries hall

/-- **No library is left out for the values it has no text for.** One with the laws for the values
of a kind agrees with texts of all values, on the dumps of the kind and in what it makes of every
text without a long run of a byte that UTF-8 does not have. -/
theorem exists_agrees :
    ∃ text : JsonText, (∀ j, Kind j → text.dump j = library.dump j ∧
        text.dumpIndented j = library.dumpIndented j) ∧
      ∀ s, ¬List.replicate (k + 1) 255 <:+: s →
        text.parse s = library.parse s ∧ text.read s = library.read s :=
  ⟨library.toJsonText k, fun _ hj => ⟨extend_of_kind k hj, extend_of_kind k hj⟩,
    fun _ hs => ⟨widen_of_not_isInfix hs, widen_of_not_isInfix hs⟩⟩

end For

end JsonText

end AnuDB
