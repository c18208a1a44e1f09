import AnuDB.JsonText

/-!
# A format of JSON text

`AnuDB.JsonText.standard` is a writer and a reader of JSON, so that runs that go through text
can be carried out. The writer escapes as the real one does, and writes compactly, or indented by
four blanks a level; the reader skips white space between tokens.

Three things are simpler than in the real ones. A double is written as `#` and its bits, which no
JSON text has, where the real writer looks for the shortest decimal; a `\u` escape outside ASCII is
not read; and the text of a parse error is the one for an input whose first byte begins no value,
whatever is wrong.
-/

namespace AnuDB

namespace JsonFormat

/-! ### Strings -/

/-- A hexadecimal digit. -/
def hexDigit (d : ℕ) : UInt8 := UInt8.ofNat (if d < 10 then 48 + d else 87 + d)

/-- The value of a hexadecimal digit. -/
def hexValue (b : UInt8) : Option ℕ :=
  if 48 ≤ b.toNat ∧ b.toNat ≤ 57 then some (b.toNat - 48)
  else if 97 ≤ b.toNat ∧ b.toNat ≤ 102 then some (b.toNat - 87)
  else if 65 ≤ b.toNat ∧ b.toNat ≤ 70 then some (b.toNat - 55)
  else none

/-- The letters after a backslash, with the bytes they stand for. -/
def escapes : List (UInt8 × UInt8) :=
  [(34, 34), (92, 92), (47, 47), (98, 8), (116, 9), (110, 10), (102, 12), (114, 13)]

/-- A byte of a string, as it is written. -/
def escapeByte (b : UInt8) : Bytes :=
  if b = 34 then [92, 34]
  else if b = 92 then [92, 92]
  else if b = 8 then [92, 98]
  else if b = 9 then [92, 116]
  else if b = 10 then [92, 110]
  else if b = 12 then [92, 102]
  else if b = 13 then [92, 114]
  else if b.toNat < 32 then [92, 117, 48, 48, hexDigit (b.toNat / 16), hexDigit (b.toNat % 16)]
  else [b]

/-- A string, as it is written. -/
def writeString (s : Bytes) : Bytes := 34 :: (s.flatMap escapeByte ++ [34])

/-- The character of a `\u` escape. -/
def unicode (a b c d : UInt8) : Option UInt8 := do
  let a ← hexValue a
  let b ← hexValue b
  let c ← hexValue c
  let d ← hexValue d
  if a = 0 ∧ b = 0 ∧ c < 8 then some (UInt8.ofNat (c * 16 + d)) else none

/-- The bytes up to the closing quote. -/
def readChars : Bytes → Option (Bytes × Bytes)
  | [] => none
  | 34 :: s => some ([], s)
  | 92 :: 117 :: a :: b :: c :: d :: s =>
    (unicode a b c d).bind fun x => (readChars s).map fun r => (x :: r.1, r.2)
  | 92 :: letter :: s =>
    (escapes.lookup letter).bind fun x => (readChars s).map fun r => (x :: r.1, r.2)
  | b :: s =>
    if b = 92 ∨ b.toNat < 32 then none else (readChars s).map fun r => (b :: r.1, r.2)
termination_by structural s => s

/-- A string is read, up to its closing quote; it has to be UTF-8. -/
def readString (s : Bytes) : Option (Bytes × Bytes) :=
  (readChars s).bind fun r => if Utf8.Valid r.1 then some r else none

theorem unicode_hexDigit : ∀ n < 32,
    unicode 48 48 (hexDigit (n / 16)) (hexDigit (n % 16)) = some (UInt8.ofNat n) := by
  decide

/-- What is written of a byte is read as the byte. -/
theorem readChars_escapeByte (b : UInt8) (s : Bytes) :
    readChars (escapeByte b ++ s) = (readChars s).map fun r => (b :: r.1, r.2) := by
  rw [escapeByte]
  split_ifs with h1 h2 h3 h4 h5 h6 h7 h8
  · subst h1
    rfl
  · subst h2
    rfl
  · subst h3
    rfl
  · subst h4
    rfl
  · subst h5
    rfl
  · subst h6
    rfl
  · subst h7
    rfl
  · have hunicode := unicode_hexDigit b.toNat h8
    rw [UInt8.ofNat_toNat] at hunicode
    change (unicode 48 48 _ _).bind _ = _
    rw [hunicode]
    rfl
  · simp [readChars, h2, h8]

theorem readChars_flatMap (t s : Bytes) :
    readChars (t.flatMap escapeByte ++ 34 :: s) = some (t, s) := by
  induction t with
  | nil => rfl
  | cons b t ih =>
    rw [List.flatMap_cons, List.append_assoc, readChars_escapeByte, ih]
    rfl

/-- **A string is read back**, if it is UTF-8. -/
theorem readString_append {t : Bytes} (ht : Utf8.Valid t) (s : Bytes) :
    readString (t.flatMap escapeByte ++ 34 :: s) = some (t, s) := by
  rw [readString, readChars_flatMap, Option.bind_some, if_pos ht]

theorem valid_of_readString {s : Bytes} {r : Bytes × Bytes} (h : readString s = some r) :
    Utf8.Valid r.1 := by
  obtain ⟨r', -, hr⟩ := Option.bind_eq_some_iff.mp h
  split_ifs at hr with hvalid
  rwa [← Option.some.inj hr]

/-! ### Numbers and white space -/

/-- White space. -/
def IsSpace (b : UInt8) : Prop := b = 32 ∨ b = 9 ∨ b = 10 ∨ b = 13

instance (b : UInt8) : Decidable (IsSpace b) := inferInstanceAs (Decidable (_ ∨ _))

/-- White space is skipped. -/
def skip (s : Bytes) : Bytes := s.dropWhile fun b => decide (IsSpace b)

/-- Digits are read. -/
def readDecimal (s : Bytes) : Option (ℕ × Bytes) :=
  let digits := s.takeWhile fun b => decide (Bytes.IsDigit b)
  if digits = [] then none
  else some (Bytes.ofDecimal digits, s.dropWhile fun b => decide (Bytes.IsDigit b))

/-- The text does not begin with a digit. -/
def NoDigit (s : Bytes) : Prop := ∀ b t, s = b :: t → ¬Bytes.IsDigit b

theorem noDigit_nil : NoDigit [] := fun _ _ h => by cases h

theorem noDigit_cons {b : UInt8} {s : Bytes} (h : ¬Bytes.IsDigit b) : NoDigit (b :: s) := by
  rintro b' t ⟨⟩
  exact h

theorem readDecimal_append (n : ℕ) {s : Bytes} (hs : NoDigit s) :
    readDecimal (Bytes.decimal n ++ s) = some (n, s) := by
  have hdigits : ∀ b ∈ Bytes.decimal n, decide (Bytes.IsDigit b) = true := fun b hb =>
    decide_eq_true (Bytes.isDigit_of_mem_decimal hb)
  have htake : s.takeWhile (fun b => decide (Bytes.IsDigit b)) = [] := by
    cases s with
    | nil => rfl
    | cons b t => rw [List.takeWhile_cons, decide_eq_false (hs b t rfl)]; rfl
  have hdrop : s.dropWhile (fun b => decide (Bytes.IsDigit b)) = s := by
    cases s with
    | nil => rfl
    | cons b t => rw [List.dropWhile_cons, decide_eq_false (hs b t rfl)]; rfl
  rw [readDecimal, List.takeWhile_append_of_pos hdigits, List.dropWhile_append_of_pos hdigits,
    htake, hdrop, List.append_nil, if_neg (Bytes.decimal_ne_nil n), Bytes.ofDecimal_decimal]

theorem skip_append {g s : Bytes} (hg : ∀ b ∈ g, IsSpace b) : skip (g ++ s) = skip s := by
  rw [skip, List.dropWhile_append_of_pos fun b hb => decide_eq_true (hg b hb)]
  rfl

theorem skip_cons {b : UInt8} {s : Bytes} (hb : ¬IsSpace b) : skip (b :: s) = b :: s := by
  rw [skip, List.dropWhile_cons, decide_eq_false hb]
  rfl

/-! ### Values -/

/-- A line break and the blanks of a level, in an indented text. -/
def gap : Option ℕ → Bytes
  | none => []
  | some level => 10 :: List.replicate level 32

/-- Things between brackets, with commas between them. -/
def bracket (opening closing : UInt8) (indent : Option ℕ) (texts : List Bytes) : Bytes :=
  if texts = [] then [opening, closing]
  else
    let inner := gap (indent.map (· + 4))
    opening :: (inner ++ (44 :: inner).intercalate texts ++ gap indent ++ [closing])

/-- A number, with its sign. -/
def writeInteger (i : ℤ) : Bytes :=
  if 0 ≤ i then Bytes.decimal i.toNat else 45 :: Bytes.decimal (-i).toNat

mutual

/-- A value is written, compactly or from a level on. -/
def write (indent : Option ℕ) : Json → Bytes
  | .null => Bytes.ofText "null"
  | .boolean b => Bytes.ofText (if b then "true" else "false")
  | .integer i => writeInteger i
  | .float bits =>
    if Binary64.Finite bits then 35 :: Bytes.decimal bits.toNat else Bytes.ofText "null"
  | .string s => writeString s
  | .array items => bracket 91 93 indent (writeItems (indent.map (· + 4)) items)
  | .object members => bracket 123 125 indent (writeMembers (indent.map (· + 4)) members)

/-- The elements of an array. -/
def writeItems (indent : Option ℕ) : List Json → List Bytes
  | [] => []
  | item :: items => write indent item :: writeItems indent items

/-- The members of an object. -/
def writeMembers (indent : Option ℕ) : List (Bytes × Json) → List Bytes
  | [] => []
  | (key, value) :: members =>
    (writeString key ++ 58 :: (if indent = none then [] else [32]) ++ write indent value) ::
      writeMembers indent members

end

/-- Things are read, with commas between them, up to a closing bracket. -/
def readMore {α : Type} (read : Bytes → Option (α × Bytes)) (closing : UInt8) :
    ℕ → Bytes → Option (List α × Bytes)
  | 0, _ => none
  | fuel + 1, s =>
    (read (skip s)).bind fun r =>
      match skip r.2 with
      | [] => none
      | b :: t =>
        if b = 44 then (readMore read closing fuel t).map fun rs => (r.1 :: rs.1, rs.2)
        else if b = closing then some ([r.1], t)
        else none

/-- What follows an opening bracket is read. -/
def readBracket {α : Type} (read : Bytes → Option (α × Bytes)) (closing : UInt8) (fuel : ℕ)
    (s : Bytes) : Option (List α × Bytes) :=
  match skip s with
  | [] => none
  | b :: t => if b = closing then some ([], t) else readMore read closing fuel (b :: t)

/-- A member of an object is read. -/
def readMember (read : Bytes → Option (Json × Bytes)) :
    Bytes → Option ((Bytes × Json) × Bytes)
  | 34 :: s =>
    (readString s).bind fun r =>
      match skip r.2 with
      | 58 :: t => (read (skip t)).map fun v => ((r.1, v.1), v.2)
      | _ => none
  | _ => none

/-- A value is read, at most `fuel` levels deep. -/
def readValue : ℕ → Bytes → Option (Json × Bytes)
  | 0, _ => none
  | fuel + 1, s =>
    match s with
    | 110 :: 117 :: 108 :: 108 :: s => some (.null, s)
    | 116 :: 114 :: 117 :: 101 :: s => some (.boolean true, s)
    | 102 :: 97 :: 108 :: 115 :: 101 :: s => some (.boolean false, s)
    | 34 :: s => (readString s).map fun r => (.string r.1, r.2)
    | 35 :: s => (readDecimal s).map fun r => (.float (UInt64.ofNat r.1), r.2)
    | 45 :: s => (readDecimal s).map fun r => (.integer (-r.1), r.2)
    | 91 :: s => (readBracket (readValue fuel) 93 fuel s).map fun r => (.array r.1, r.2)
    | 123 :: s =>
      (readBracket (readMember (readValue fuel)) 125 fuel s).map fun r => (.object r.1, r.2)
    | s => (readDecimal s).map fun r => (.integer r.1, r.2)

/-! ### What is written is read -/

/-- The text begins with a byte that is neither white space nor a closing bracket. -/
def Begins (text : Bytes) : Prop :=
  ∃ b t, text = b :: t ∧ ¬IsSpace b ∧ b ≠ 93 ∧ b ≠ 125

/-- A reader takes a text, whatever but a digit follows, for a value. -/
def Reads {α : Type} (read : Bytes → Option (α × Bytes)) (a : α) (text : Bytes) : Prop :=
  Begins text ∧ ∀ s, NoDigit s → read (text ++ s) = some (a, s)

theorem begins_cons {b : UInt8} {t : Bytes} (h : ¬IsSpace b ∧ b ≠ 93 ∧ b ≠ 125) :
    Begins (b :: t) := ⟨b, t, rfl, h⟩

theorem Begins.skip_append {text : Bytes} (h : Begins text) {g : Bytes}
    (hg : ∀ b ∈ g, IsSpace b) (s : Bytes) : skip (g ++ (text ++ s)) = text ++ s := by
  obtain ⟨b, t, rfl, hb, -⟩ := h
  rw [JsonFormat.skip_append hg, List.cons_append, skip_cons hb]

/-- The byte after a text and a gap is no digit. -/
theorem noDigit_gap {g : Bytes} (hg : ∀ b ∈ g, IsSpace b) {closing : UInt8}
    (hclosing : ¬Bytes.IsDigit closing) (s : Bytes) : NoDigit (g ++ closing :: s) := by
  cases g with
  | nil => exact noDigit_cons hclosing
  | cons b g =>
    refine noDigit_cons fun hdigit => ?_
    have hspace := hg b List.mem_cons_self
    rw [Bytes.IsDigit] at hdigit
    rcases hspace with rfl | rfl | rfl | rfl <;> exact absurd hdigit (by decide)

/-- What commas keep apart is read, one after the other. -/
theorem readMore_intercalate {α : Type} {read : Bytes → Option (α × Bytes)} {closing : UInt8}
    (hclosing : ¬IsSpace closing ∧ ¬Bytes.IsDigit closing ∧ closing ≠ 44) {inner outer : Bytes}
    (hinner : ∀ b ∈ inner, IsSpace b) (houter : ∀ b ∈ outer, IsSpace b) {values : List α}
    {texts : List Bytes} (h : List.Forall₂ (Reads read) values texts) (hne : texts ≠ [])
    (fuel : ℕ) (hfuel : values.length ≤ fuel) {g : Bytes} (hg : ∀ b ∈ g, IsSpace b) (s : Bytes) :
    readMore read closing fuel
      (g ++ ((44 :: inner).intercalate texts ++ (outer ++ closing :: s))) = some (values, s) := by
  induction h generalizing fuel g with
  | nil => exact absurd rfl hne
  | @cons a text values texts hread hmore ih =>
    obtain ⟨fuel, rfl⟩ : ∃ n, fuel = n + 1 := ⟨fuel - 1, by rw [List.length_cons] at hfuel; omega⟩
    rw [List.length_cons] at hfuel
    rw [readMore]
    cases texts with
    | nil =>
      -- the last one: the closing bracket follows
      obtain rfl := List.forall₂_nil_right_iff.mp hmore
      rw [List.intercalate_singleton, hread.1.skip_append hg,
        hread.2 _ (noDigit_gap houter hclosing.2.1 s)]
      simp only [Option.bind_some]
      rw [skip_append houter, skip_cons hclosing.1]
      simp only
      rw [if_neg hclosing.2.2, if_pos trivial]
    | cons next texts =>
      have hcomma : NoDigit (44 :: (inner ++ ((44 :: inner).intercalate (next :: texts) ++
          (outer ++ closing :: s)))) := noDigit_cons (by decide)
      rw [List.intercalate_cons_cons, List.append_assoc, List.append_assoc, hread.1.skip_append hg,
        List.cons_append, hread.2 _ hcomma]
      simp only [Option.bind_some]
      rw [skip_cons (by decide)]
      simp only [if_true]
      rw [ih (by simp) fuel (by omega) hinner]
      rfl

theorem length_intercalate (inner : Bytes) (texts : List Bytes) :
    texts.flatten.length + texts.length ≤ ((44 :: inner).intercalate texts).length + 1 := by
  induction texts with
  | nil => simp
  | cons text texts ih =>
    cases texts with
    | nil => simp
    | cons next texts =>
      rw [List.intercalate_cons_cons, List.flatten_cons]
      simp only [List.length_append, List.length_cons] at ih ⊢
      omega

/-- The text between brackets leaves room for its parts. -/
theorem length_bracket (opening closing : UInt8) (indent : Option ℕ) (texts : List Bytes) :
    texts.flatten.length + texts.length < (bracket opening closing indent texts).length := by
  rw [bracket]
  split_ifs with h
  · subst h
    simp
  · have hlength := length_intercalate (gap (indent.map (· + 4))) texts
    simp only [List.length_append, List.length_cons, List.length_nil]
    omega

theorem isSpace_gap (indent : Option ℕ) : ∀ b ∈ gap indent, IsSpace b := by
  intro b hb
  cases indent with
  | none => cases hb
  | some level =>
    rcases List.mem_cons.mp hb with rfl | hb
    · exact .inr (.inr (.inl rfl))
    · exact .inl (List.eq_of_mem_replicate hb)

/-- **What is between brackets is read.** -/
theorem readBracket_texts {α : Type} {read : Bytes → Option (α × Bytes)} {closing : UInt8}
    (hclosing : closing = 93 ∨ closing = 125) (inner outer : Bytes)
    (hinner : ∀ b ∈ inner, IsSpace b) (houter : ∀ b ∈ outer, IsSpace b) {values : List α}
    {texts : List Bytes} (h : List.Forall₂ (Reads read) values texts)
    {fuel : ℕ} (hfuel : values.length ≤ fuel) (s : Bytes) :
    readBracket read closing fuel (inner ++ ((44 :: inner).intercalate texts ++
      (outer ++ closing :: s))) = some (values, s) := by
  have hplain : ¬IsSpace closing ∧ ¬Bytes.IsDigit closing ∧ closing ≠ 44 := by
    rcases hclosing with rfl | rfl <;> decide
  cases h with
  | nil =>
    rw [readBracket, List.intercalate_nil, List.nil_append, skip_append hinner,
      skip_append houter, skip_cons hplain.1]
    simp only [if_true]
  | @cons a text values texts hread hmore =>
    have hall := readMore_intercalate hplain hinner houter (List.Forall₂.cons hread hmore)
      (by simp) fuel hfuel (g := []) (by simp) s
    obtain ⟨b, t, rfl, hb⟩ := hread.1
    have hne : b ≠ closing := by
      rcases hclosing with rfl | rfl
      · exact hb.2.1
      · exact hb.2.2
    obtain ⟨rest, hrest⟩ : ∃ rest, (44 :: inner).intercalate ((b :: t) :: texts) = b :: rest := by
      cases texts with
      | nil => exact ⟨t, List.intercalate_singleton⟩
      | cons next texts => exact ⟨_, List.intercalate_cons_cons⟩
    rw [hrest] at hall ⊢
    rw [List.nil_append, List.cons_append] at hall
    rw [readBracket, skip_append hinner, List.cons_append, skip_cons hb.1]
    simp only [if_neg hne]
    exact hall

/-- The same, of brackets as they are written. -/
theorem readBracket_bracket {α : Type} {read : Bytes → Option (α × Bytes)} {closing : UInt8}
    (hclosing : closing = 93 ∨ closing = 125) (opening : UInt8) (indent : Option ℕ)
    {values : List α} {texts : List Bytes} (h : List.Forall₂ (Reads read) values texts)
    (fuel : ℕ) (hfuel : values.length ≤ fuel) (s : Bytes) :
    ∃ t, bracket opening closing indent texts ++ s = opening :: t ∧
      readBracket read closing fuel t = some (values, s) := by
  rw [bracket]
  split_ifs with htexts
  · subst htexts
    obtain rfl := List.forall₂_nil_right_iff.mp h
    exact ⟨closing :: s, rfl, readBracket_texts hclosing [] [] (by simp)
      (by simp) List.Forall₂.nil hfuel s⟩
  · refine ⟨gap (indent.map (· + 4)) ++ ((44 :: gap (indent.map (· + 4))).intercalate texts ++
      (gap indent ++ closing :: s)), ?_, ?_⟩
    · simp only [List.cons_append, List.append_assoc, List.nil_append]
    · exact readBracket_texts hclosing _ _ (isSpace_gap _) (isSpace_gap _) h hfuel s

theorem begins_of_isDigit {b : UInt8} {t : Bytes} (h : Bytes.IsDigit b) : Begins (b :: t) := by
  refine begins_cons ⟨fun hspace => ?_, ?_, ?_⟩
  · rcases hspace with rfl | rfl | rfl | rfl <;> exact absurd h (by decide)
  · rintro rfl
    exact absurd h (by decide)
  · rintro rfl
    exact absurd h (by decide)

/-- A number is read as such. -/
theorem readValue_digit {b : UInt8} (hb : Bytes.IsDigit b) (fuel : ℕ) (s : Bytes) :
    readValue (fuel + 1) (b :: s) = (readDecimal (b :: s)).map fun r => (.integer r.1, r.2) := by
  have hne : ∀ c, ¬Bytes.IsDigit c → b ≠ c := fun c hc heq => hc (heq ▸ hb)
  have h110 := hne 110 (by decide)
  have h116 := hne 116 (by decide)
  have h102 := hne 102 (by decide)
  have h34 := hne 34 (by decide)
  have h35 := hne 35 (by decide)
  have h45 := hne 45 (by decide)
  have h91 := hne 91 (by decide)
  have h123 := hne 123 (by decide)
  simp [readValue, h110, h116, h102, h34, h35, h45, h91, h123]

theorem reads_integer (i : ℤ) (fuel : ℕ) :
    Reads (readValue (fuel + 1)) (.integer i) (writeInteger i) := by
  rw [writeInteger]
  split_ifs with hi
  · obtain ⟨b, t, hbt⟩ := List.exists_cons_of_ne_nil (Bytes.decimal_ne_nil i.toNat)
    have hb : Bytes.IsDigit b :=
      Bytes.isDigit_of_mem_decimal (n := i.toNat) (hbt ▸ List.mem_cons_self)
    refine ⟨hbt ▸ begins_of_isDigit hb, fun s hs => ?_⟩
    have hread := readDecimal_append i.toNat hs
    rw [hbt, List.cons_append] at hread ⊢
    rw [readValue_digit hb, hread, Option.map_some, Int.toNat_of_nonneg hi]
  · refine ⟨begins_cons (by decide), fun s hs => ?_⟩
    change (readDecimal (Bytes.decimal (-i).toNat ++ s)).map _ = _
    rw [readDecimal_append _ hs, Option.map_some, Int.toNat_of_nonneg (by omega), neg_neg]

theorem reads_float (bits : UInt64) (fuel : ℕ) :
    Reads (readValue (fuel + 1)) (.float bits) (35 :: Bytes.decimal bits.toNat) := by
  refine ⟨begins_cons (by decide), fun s hs => ?_⟩
  change (readDecimal (Bytes.decimal bits.toNat ++ s)).map _ = _
  rw [readDecimal_append _ hs, Option.map_some, UInt64.ofNat_toNat]

theorem reads_string {t : Bytes} (ht : Utf8.Valid t) (fuel : ℕ) :
    Reads (readValue (fuel + 1)) (.string t) (writeString t) := by
  refine ⟨begins_cons (by decide), fun s _ => ?_⟩
  rw [writeString, List.cons_append, List.append_assoc, List.singleton_append]
  change (readString (t.flatMap escapeByte ++ 34 :: s)).map _ = _
  rw [readString_append ht, Option.map_some]

/-- A member is read, if its value is. -/
theorem reads_member {read : Bytes → Option (Json × Bytes)} {key : Bytes} (hkey : Utf8.Valid key)
    {value : Json} {text : Bytes} (h : Reads read value text) {g : Bytes}
    (hg : ∀ b ∈ g, IsSpace b) :
    Reads (readMember read) (key, value) (writeString key ++ 58 :: g ++ text) := by
  refine ⟨begins_cons (by decide), fun s hs => ?_⟩
  have hstring := readString_append hkey (58 :: (g ++ (text ++ s)))
  simp only [writeString, List.cons_append, List.append_assoc, List.nil_append]
  rw [readMember, hstring, Option.bind_some, skip_cons (by decide)]
  simp only
  rw [h.1.skip_append hg, h.2 s hs, Option.map_some]

theorem length_le_flatten {text : Bytes} {texts : List Bytes} (h : text ∈ texts) :
    text.length ≤ texts.flatten.length := by
  obtain ⟨before, after, rfl⟩ := List.append_of_mem h
  simp only [List.flatten_append, List.flatten_cons, List.length_append]
  omega

theorem length_writeItems (indent : Option ℕ) (items : List Json) :
    (writeItems indent items).length = items.length := by
  induction items with
  | nil => rfl
  | cons item items ih => rw [writeItems, List.length_cons, List.length_cons, ih]

theorem length_writeMembers (indent : Option ℕ) (members : List (Bytes × Json)) :
    (writeMembers indent members).length = members.length := by
  induction members with
  | nil => rfl
  | cons member members ih => rw [writeMembers, List.length_cons, List.length_cons, ih]

mutual

/-- **What is written is read**, given the fuel for its depth. -/
theorem reads_write : ∀ (j : Json) (indent : Option ℕ) (fuel : ℕ), j.isClean = true →
    (write indent j).length ≤ fuel → Reads (readValue (fuel + 1)) j (write indent j)
  | .null, indent, fuel, _, _ => ⟨begins_cons (by decide), fun s _ => rfl⟩
  | .boolean true, indent, fuel, _, _ => ⟨begins_cons (by decide), fun s _ => rfl⟩
  | .boolean false, indent, fuel, _, _ => ⟨begins_cons (by decide), fun s _ => rfl⟩
  | .integer i, indent, fuel, _, _ => by
    rw [write]
    exact reads_integer i fuel
  | .float bits, indent, fuel, hclean, _ => by
    rw [write, if_pos (of_decide_eq_true hclean)]
    exact reads_float bits fuel
  | .string t, indent, fuel, hclean, _ => by
    rw [write]
    exact reads_string (of_decide_eq_true hclean) fuel
  | .array items, indent, fuel, hclean, hfuel => by
    rw [write] at hfuel ⊢
    have hlength := length_bracket 91 93 indent (writeItems (indent.map (· + 4)) items)
    have hcount := length_writeItems (indent.map (· + 4)) items
    obtain ⟨fuel, rfl⟩ : ∃ n, fuel = n + 1 := ⟨fuel - 1, by omega⟩
    have hitems := reads_writeItems items (indent.map (· + 4)) fuel hclean (by omega)
    have hread := readBracket_bracket (.inl rfl) 91 indent hitems
      (fuel + 1) (by omega)
    refine ⟨?_, fun s hs => ?_⟩
    · obtain ⟨t, ht, -⟩ := hread []
      rw [List.append_nil] at ht
      exact ht ▸ begins_cons (by decide)
    · obtain ⟨t, ht, hread⟩ := hread s
      rw [ht]
      change (readBracket (readValue (fuel + 1)) 93 (fuel + 1) t).map _ = _
      rw [hread, Option.map_some]
  | .object members, indent, fuel, hclean, hfuel => by
    rw [write] at hfuel ⊢
    have hlength := length_bracket 123 125 indent (writeMembers (indent.map (· + 4)) members)
    have hcount := length_writeMembers (indent.map (· + 4)) members
    obtain ⟨fuel, rfl⟩ : ∃ n, fuel = n + 1 := ⟨fuel - 1, by omega⟩
    have hmembers := reads_writeMembers members (indent.map (· + 4)) fuel hclean (by omega)
    have hread := readBracket_bracket (.inr rfl) 123 indent hmembers
      (fuel + 1) (by omega)
    refine ⟨?_, fun s hs => ?_⟩
    · obtain ⟨t, ht, -⟩ := hread []
      rw [List.append_nil] at ht
      exact ht ▸ begins_cons (by decide)
    · obtain ⟨t, ht, hread⟩ := hread s
      rw [ht]
      change (readBracket (readMember (readValue (fuel + 1))) 125 (fuel + 1) t).map _ = _
      rw [hread, Option.map_some]

theorem reads_writeItems : ∀ (items : List Json) (indent : Option ℕ) (fuel : ℕ),
    allItems (fun s => decide (Utf8.Valid s)) (fun bits => decide (Binary64.Finite bits)) items =
      true →
    (writeItems indent items).flatten.length ≤ fuel →
    List.Forall₂ (Reads (readValue (fuel + 1))) items (writeItems indent items)
  | [], _, _, _, _ => .nil
  | item :: items, indent, fuel, hclean, hfuel => by
    rw [allItems, Bool.and_eq_true] at hclean
    rw [writeItems, List.flatten_cons, List.length_append] at hfuel
    exact .cons (reads_write item indent fuel hclean.1 (by omega))
      (reads_writeItems items indent fuel hclean.2 (by omega))

theorem reads_writeMembers : ∀ (members : List (Bytes × Json)) (indent : Option ℕ) (fuel : ℕ),
    allMembers (fun s => decide (Utf8.Valid s)) (fun bits => decide (Binary64.Finite bits))
      members = true →
    (writeMembers indent members).flatten.length ≤ fuel →
    List.Forall₂ (Reads (readMember (readValue (fuel + 1)))) members (writeMembers indent members)
  | [], _, _, _, _ => .nil
  | (key, value) :: members, indent, fuel, hclean, hfuel => by
    simp only [allMembers, Bool.and_eq_true] at hclean
    rw [writeMembers, List.flatten_cons, List.length_append] at hfuel
    simp only [List.length_append, List.length_cons] at hfuel
    refine .cons (reads_member (of_decide_eq_true hclean.1.1)
      (reads_write value indent fuel hclean.1.2 (by omega)) ?_)
      (reads_writeMembers members indent fuel hclean.2 (by omega))
    split_ifs <;> simp [IsSpace]

end

/-! ### What is read is UTF-8 -/

theorem forall_of_readMore {α : Type} {read : Bytes → Option (α × Bytes)} {P : α → Prop}
    (h : ∀ s r, read s = some r → P r.1) {closing : UInt8} :
    ∀ (fuel : ℕ) (s : Bytes) (r : List α × Bytes), readMore read closing fuel s = some r →
      ∀ a ∈ r.1, P a
  | 0, _, _, hread, _, _ => by cases hread
  | fuel + 1, s, r, hread, a, ha => by
    rw [readMore] at hread
    obtain ⟨r', hr', hread⟩ := Option.bind_eq_some_iff.mp hread
    split at hread
    · cases hread
    · rename_i b t _
      split_ifs at hread
      · obtain ⟨rs, hrs, rfl⟩ := Option.map_eq_some_iff.mp hread
        rcases List.mem_cons.mp ha with rfl | ha
        · exact h _ _ hr'
        · exact forall_of_readMore h fuel t rs hrs a ha
      · cases hread
        rw [List.mem_singleton.mp ha]
        exact h _ _ hr'

theorem forall_of_readBracket {α : Type} {read : Bytes → Option (α × Bytes)} {P : α → Prop}
    (h : ∀ s r, read s = some r → P r.1) {closing : UInt8} {fuel : ℕ} {s : Bytes}
    {r : List α × Bytes} (hread : readBracket read closing fuel s = some r) :
    ∀ a ∈ r.1, P a := by
  rw [readBracket] at hread
  split at hread
  · cases hread
  · split_ifs at hread
    · cases hread
      exact fun a ha => by cases ha
    · exact forall_of_readMore h fuel _ r hread

theorem valid_of_readMember {read : Bytes → Option (Json × Bytes)}
    (h : ∀ s r, read s = some r → r.1.isUtf8 = true) (s : Bytes) (r : (Bytes × Json) × Bytes)
    (hread : readMember read s = some r) :
    decide (Utf8.Valid r.1.1) = true ∧ r.1.2.isUtf8 = true := by
  rw [readMember.eq_def] at hread
  split at hread
  · obtain ⟨r', hr', hread⟩ := Option.bind_eq_some_iff.mp hread
    split at hread
    · obtain ⟨v, hv, rfl⟩ := Option.map_eq_some_iff.mp hread
      exact ⟨decide_eq_true (valid_of_readString hr'), h _ v hv⟩
    · cases hread
  · cases hread

/-- **The strings of a value that was read are UTF-8.** -/
theorem isUtf8_of_readValue (fuel : ℕ) (s : Bytes) (r : Json × Bytes)
    (hread : readValue fuel s = some r) : r.1.isUtf8 = true := by
  induction fuel generalizing s r with
  | zero => cases hread
  | succ fuel ih =>
    rw [readValue.eq_def] at hread
    simp only at hread
    split at hread
    -- the three words, and a string
    · cases hread
      rfl
    · cases hread
      rfl
    · cases hread
      rfl
    · obtain ⟨r', hr', rfl⟩ := Option.map_eq_some_iff.mp hread
      exact decide_eq_true (valid_of_readString hr')
    -- a double and a negative number
    · obtain ⟨r', -, rfl⟩ := Option.map_eq_some_iff.mp hread
      rfl
    · obtain ⟨r', -, rfl⟩ := Option.map_eq_some_iff.mp hread
      rfl
    -- brackets
    · obtain ⟨r', hr', rfl⟩ := Option.map_eq_some_iff.mp hread
      exact allItems_iff.mpr (forall_of_readBracket ih hr')
    · obtain ⟨r', hr', rfl⟩ := Option.map_eq_some_iff.mp hread
      exact allMembers_iff.mpr (forall_of_readBracket (valid_of_readMember ih) hr')
    · obtain ⟨r', -, rfl⟩ := Option.map_eq_some_iff.mp hread
      rfl

/-! ### The format -/

/-- The text of the exception a text that cannot be read is met with. -/
def parseError : Bytes → Bytes
  | [] => Bytes.ofText ("[json.exception.parse_error.101] parse error at line 1, column 1: " ++
      "syntax error while parsing value - unexpected end of input; expected '[', '\x7b', or a " ++
      "literal")
  | b :: _ => Bytes.ofText ("[json.exception.parse_error.101] parse error at line 1, column 1: " ++
      "syntax error while parsing value - invalid literal; last read: '") ++ b :: Bytes.ofText "'"

/-- The value a text begins with. -/
def read (s : Bytes) : Except Bytes Json :=
  match readValue (s.length + 1) (skip s) with
  | some r => .ok r.1
  | none => .error (parseError s)

/-- The value a text is. -/
def parse (s : Bytes) : Except Bytes Json :=
  match readValue (s.length + 1) (skip s) with
  | some r => if skip r.2 = [] then .ok r.1 else .error (parseError s)
  | none => .error (parseError s)

theorem write_ne_nil (indent : Option ℕ) (j : Json) : write indent j ≠ [] := by
  rw [write.eq_def]
  cases j with
  | null => exact List.cons_ne_nil _ _
  | boolean b => cases b <;> exact List.cons_ne_nil _ _
  | integer i =>
    show writeInteger i ≠ []
    rw [writeInteger]
    split_ifs
    · exact Bytes.decimal_ne_nil _
    · exact List.cons_ne_nil _ _
  | float bits =>
    show (if Binary64.Finite bits then _ else _) ≠ []
    split_ifs
    · exact List.cons_ne_nil _ _
    · exact List.cons_ne_nil _ _
  | string s => exact List.cons_ne_nil _ _
  | array items =>
    show bracket _ _ _ _ ≠ []
    rw [bracket]
    split_ifs
    · exact List.cons_ne_nil _ _
    · exact List.cons_ne_nil _ _
  | object members =>
    show bracket _ _ _ _ ≠ []
    rw [bracket]
    split_ifs
    · exact List.cons_ne_nil _ _
    · exact List.cons_ne_nil _ _

/-- A value is dumped, if it is UTF-8. -/
def dump (indent : Option ℕ) (j : Json) : Except Bytes Bytes :=
  if j.isUtf8 then .ok (write indent j)
  else .error (Bytes.ofText "[json.exception.type_error.316] invalid UTF-8 byte")

theorem dump_ok_iff (indent : Option ℕ) (j : Json) :
    (∃ s, dump indent j = .ok s) ↔ j.isUtf8 = true := by
  rw [dump]
  split_ifs with h
  · exact iff_of_true ⟨_, rfl⟩ h
  · exact iff_of_false (by rintro ⟨s, hs⟩; cases hs) h

/-- A text in front of which nothing is skipped is read. -/
theorem parse_of_reads {j : Json} {s : Bytes} (h : Reads (readValue (s.length + 1)) j s) :
    parse s = .ok j := by
  have hskip := h.1.skip_append (g := []) (by simp) []
  have hread := h.2 [] noDigit_nil
  rw [List.nil_append, List.append_nil] at hskip
  rw [List.append_nil] at hread
  rw [parse, hskip, hread]
  rfl

theorem eq_write_of_dump {indent : Option ℕ} {j : Json} {s : Bytes} (h : dump indent j = .ok s) :
    s = write indent j := by
  rw [dump] at h
  split_ifs at h
  exact (Except.ok.inj h).symm

/-- An array of texts, as exports write it, in the bytes of a reader. -/
theorem arrayText_eq (texts : List Bytes) :
    arrayText texts = 91 :: ([10] ++ ((44 :: [10]).intercalate texts ++ ([10] ++ [93]))) := by
  rw [arrayText, List.append_assoc]
  rfl

theorem length_arrayText (texts : List Bytes) :
    (arrayText texts).length = ((44 :: [10]).intercalate texts).length + 4 := by
  rw [arrayText_eq]
  simp only [List.length_append, List.length_cons, List.length_nil]
  omega

/-- An array of texts, as exports write it, is parsed. -/
theorem parse_arrayText_of_reads {values : List Json} {texts : List Bytes}
    (h : List.Forall₂ (Reads (readValue (arrayText texts).length)) values texts) :
    parse (arrayText texts) = .ok (.array values) := by
  have hlength : values.length ≤ (arrayText texts).length := by
    have hcount := h.length_eq
    have hintercalate := length_intercalate [10] texts
    have htexts := length_arrayText texts
    omega
  have hbracket := readBracket_texts (.inl rfl) [10] [10]
    (by simp [IsSpace]) (by simp [IsSpace]) h hlength []
  have hread : readValue ((arrayText texts).length + 1) (skip (arrayText texts)) =
      some (.array values, []) := by
    rw [arrayText_eq] at hbracket ⊢
    rw [skip_cons (by decide)]
    change (readBracket (readValue _) 93 _ _).map _ = _
    rw [hbracket]
    rfl
  rw [parse, hread]
  rfl

end JsonFormat

/-- **A format of JSON text.** -/
def JsonText.standard : JsonText where
  parse := JsonFormat.parse
  read := JsonFormat.read
  dump := JsonFormat.dump none
  dumpIndented := JsonFormat.dump (some 0)
  isUtf8_of_parse {s j} h := by
    rw [JsonFormat.parse] at h
    split at h
    · rename_i r hr
      split_ifs at h
      cases h
      exact JsonFormat.isUtf8_of_readValue _ _ r hr
    · cases h
  dump_ok_iff := JsonFormat.dump_ok_iff none
  dumpIndented_ok_iff := JsonFormat.dump_ok_iff (some 0)
  valid_of_dump_error {j what} h := by
    rw [JsonFormat.dump] at h
    split_ifs at h
    cases h
    decide
  parse_dump {j s} hclean h := by
    obtain rfl := JsonFormat.eq_write_of_dump h
    exact JsonFormat.parse_of_reads (JsonFormat.reads_write j none _ hclean le_rfl)
  read_of_parse {s j} h := by
    rw [JsonFormat.parse] at h
    rw [JsonFormat.read]
    split at h
    · split_ifs at h
      exact h
    · cases h
  parse_arrayText entries h := by
    obtain ⟨fuel, hfuel⟩ : ∃ n, (arrayText (entries.map Prod.snd)).length = n + 1 :=
      ⟨_, JsonFormat.length_arrayText _⟩
    refine JsonFormat.parse_arrayText_of_reads ?_
    rw [List.forall₂_map_left_iff, List.forall₂_map_right_iff, List.forall₂_same]
    intro x hx
    obtain ⟨hclean, hdump⟩ := h x hx
    have hwrite := JsonFormat.eq_write_of_dump hdump
    rw [hfuel, hwrite]
    refine JsonFormat.reads_write x.1 (some 0) fuel hclean ?_
    have hmem := JsonFormat.length_le_flatten (List.mem_map_of_mem (f := Prod.snd) hx)
    have hintercalate := JsonFormat.length_intercalate [10] (entries.map Prod.snd)
    have htexts := JsonFormat.length_arrayText (entries.map Prod.snd)
    rw [← hwrite]
    omega

end AnuDB
