import AnuDB.Json
import AnuDB.Lib.Binary64
import AnuDB.Lib.Utf8

/-!
# JSON text

Values travel as text in requests and replies, and in the files of exports and imports. What
the code relies on is an `AnuDB.JsonText`: text is parsed strictly, as a request, or up to the
end of a value, as a file is read; values are dumped compactly or indented. Parsing may throw, and
the text of what is thrown may be anything, so it can repeat the bytes it complains about.
Dumping throws exactly where a string in the value is not UTF-8, and parsed strings are. The
laws are about all values, also about those no library has a form for; none is left out by that
(`AnuDB.JsonText.For.exists_agrees`).
-/

namespace AnuDB

mutual

/-- Whether all strings in a value, and all doubles, are of a kind. -/
def Json.allScalars (string : Bytes → Bool) (float : UInt64 → Bool) : Json → Bool
  | .string s => string s
  | .float bits => float bits
  | .array items => allItems string float items
  | .object members => allMembers string float members
  | _ => true

/-- The same, of the elements of an array. -/
def allItems (string : Bytes → Bool) (float : UInt64 → Bool) : List Json → Bool
  | [] => true
  | item :: items => item.allScalars string float && allItems string float items

/-- The same, of the members of an object and their names. -/
def allMembers (string : Bytes → Bool) (float : UInt64 → Bool) : List (Bytes × Json) → Bool
  | [] => true
  | (key, value) :: members =>
    string key && value.allScalars string float && allMembers string float members

end

section Scalars

variable {string : Bytes → Bool} {float : UInt64 → Bool}

theorem allItems_iff {items : List Json} :
    allItems string float items = true ↔ ∀ item ∈ items, item.allScalars string float = true := by
  induction items with
  | nil => exact iff_of_true rfl fun item hitem => by cases hitem
  | cons item items ih => rw [allItems, Bool.and_eq_true, ih, List.forall_mem_cons]

theorem allMembers_iff {members : List (Bytes × Json)} :
    allMembers string float members = true ↔
      ∀ x ∈ members, string x.1 = true ∧ x.2.allScalars string float = true := by
  induction members with
  | nil => exact iff_of_true rfl fun x hx => by cases hx
  | cons member members ih =>
    rw [allMembers, Bool.and_eq_true, Bool.and_eq_true, ih, List.forall_mem_cons]

mutual

theorem Json.allScalars_mono {string' : Bytes → Bool} {float' : UInt64 → Bool}
    (hstring : ∀ s, string s = true → string' s = true)
    (hfloat : ∀ bits, float bits = true → float' bits = true) : ∀ (j : Json),
    j.allScalars string float = true → j.allScalars string' float' = true
  | .null, _ => rfl
  | .boolean _, _ => rfl
  | .integer _, _ => rfl
  | .float bits, h => hfloat bits h
  | .string s, h => hstring s h
  | .array items, h => allItems_mono hstring hfloat items h
  | .object members, h => allMembers_mono hstring hfloat members h

theorem allItems_mono {string' : Bytes → Bool} {float' : UInt64 → Bool}
    (hstring : ∀ s, string s = true → string' s = true)
    (hfloat : ∀ bits, float bits = true → float' bits = true) : ∀ (items : List Json),
    allItems string float items = true → allItems string' float' items = true
  | [], _ => rfl
  | item :: items, h => by
    rw [allItems, Bool.and_eq_true] at h ⊢
    exact ⟨item.allScalars_mono hstring hfloat h.1, allItems_mono hstring hfloat items h.2⟩

theorem allMembers_mono {string' : Bytes → Bool} {float' : UInt64 → Bool}
    (hstring : ∀ s, string s = true → string' s = true)
    (hfloat : ∀ bits, float bits = true → float' bits = true) :
    ∀ (members : List (Bytes × Json)),
      allMembers string float members = true → allMembers string' float' members = true
  | [], _ => rfl
  | (key, value) :: members, h => by
    rw [allMembers, Bool.and_eq_true, Bool.and_eq_true] at h ⊢
    exact ⟨⟨hstring key h.1.1, value.allScalars_mono hstring hfloat h.1.2⟩,
      allMembers_mono hstring hfloat members h.2⟩

end

end Scalars

namespace Json

/-- Every string in the value is UTF-8. -/
def isUtf8 (j : Json) : Bool := j.allScalars (fun s => decide (Utf8.Valid s)) fun _ => true

/-- Every string in the value is UTF-8, and every double is finite. -/
def isClean (j : Json) : Bool :=
  j.allScalars (fun s => decide (Utf8.Valid s)) fun bits => decide (Binary64.Finite bits)

theorem isUtf8_of_isClean {j : Json} (h : j.isClean = true) : j.isUtf8 = true :=
  j.allScalars_mono (fun _ hs => hs) (fun _ _ => rfl) h

end Json

/-- The text of an array as exports write it: one element below the other. -/
def arrayText (texts : List Bytes) : Bytes :=
  Bytes.ofText "[\n" ++ (Bytes.ofText ",\n").intercalate texts ++ Bytes.ofText "\n]"

/-- **Texts of JSON values.** -/
structure JsonText where
  /-- `json::parse`: the text of the exception, where it throws. -/
  parse : Bytes → Except Bytes Json
  /-- `operator>>`, which leaves what follows the value. -/
  read : Bytes → Except Bytes Json
  /-- `dump()`. -/
  dump : Json → Except Bytes Bytes
  /-- `dump(4)`. -/
  dumpIndented : Json → Except Bytes Bytes
  /-- What is parsed is UTF-8. -/
  isUtf8_of_parse : ∀ {s j}, parse s = .ok j → j.isUtf8 = true
  /-- What is UTF-8 is dumped, and nothing else. -/
  dump_ok_iff : ∀ j, (∃ s, dump j = .ok s) ↔ j.isUtf8 = true
  /-- The same of an indented dump. -/
  dumpIndented_ok_iff : ∀ j, (∃ s, dumpIndented j = .ok s) ↔ j.isUtf8 = true
  /-- The exception does not repeat the bytes it complains about. -/
  valid_of_dump_error : ∀ {j what}, dump j = .error what → Utf8.Valid what
  /-- What is dumped is parsed back. -/
  parse_dump : ∀ {j s}, j.isClean = true → dump j = .ok s → parse s = .ok j
  /-- What is a value throughout begins with it. -/
  read_of_parse : ∀ {s j}, parse s = .ok j → read s = .ok j
  /-- An array of values that are dumped is parsed back. -/
  parse_arrayText : ∀ (entries : List (Json × Bytes)),
    (∀ x ∈ entries, x.1.isClean = true ∧ dumpIndented x.1 = .ok x.2) →
      parse (arrayText (entries.map Prod.snd)) = .ok (.array (entries.map Prod.fst))

end AnuDB
