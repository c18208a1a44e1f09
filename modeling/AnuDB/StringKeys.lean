import AnuDB.Range

/-!
# Queries on strings

A string is its own key, and the key of its entry is the string, `#` and the id of the document.
So entries are compared as strings are, unless one string continues the other: then the byte that
the longer one goes on with is compared with `#`, and after a `#` what follows is compared with
the id. This file says which strings and ids that leaves in order, and when it is that `$eq`
(`AnuDB.eqExact_iff`), `$gt`, `$lt` and `$orderBy` (`AnuDB.stringsOrdered_iff`) are exact.
-/

namespace AnuDB

variable {codec : Codec} {e : StorageEngine} {c : Collection} {f s : Bytes}

/-- The string that a document has in a field. -/
def StringAt (codec : Codec) (e : StorageEngine) (c : Collection) (f id v : Bytes) : Prop :=
  ∃ doc, e.document codec c.name_ id = some doc ∧ doc.data_.find? f = some (.string v)

/-- **Every value of the field is a string.** -/
def AllStrings (codec : Codec) (e : StorageEngine) (c : Collection) (f : Bytes) : Prop :=
  ∀ id doc v, e.document codec c.name_ id = some doc → doc.data_.find? f = some v →
    ∃ s, v = .string s

theorem StringAt.unique {id v w : Bytes} (hv : StringAt codec e c f id v)
    (hw : StringAt codec e c f id w) : v = w := by
  obtain ⟨doc, hdoc, hv⟩ := hv
  obtain ⟨doc', hdoc', hw⟩ := hw
  obtain rfl : doc = doc' := Option.some.inj (hdoc.symm.trans hdoc')
  exact Json.string.inj (Option.some.inj (hv.symm.trans hw))

/-! ### Entries of strings -/

/-- The key of the entry of a string. -/
def stringEntry (v id : Bytes) : Bytes := v ++ separator ++ id

/-- **An entry taken for one of another string**: the string continues the operand with a `#`, or
the operand continues the string with a `#` and the beginning of the id, up to a `#` there. -/
def Confused (s v id : Bytes) : Prop :=
  s ++ separator <+: v ∨ ∃ t, s = v ++ separator ++ t ∧ t ++ separator <+: id

theorem not_confused_self (s id : Bytes) : ¬Confused s s id := by
  rintro (h | ⟨t, h, -⟩)
  · have hlength := h.length_le
    simp [separator, Bytes.ofText] at hlength
  · have hlength := congrArg List.length h
    simp [separator, Bytes.ofText] at hlength

/-- Which entries begin with an operand and `#`. -/
theorem prefix_stringEntry_iff {s v id : Bytes} :
    s ++ separator <+: stringEntry v id ↔ v = s ∨ Confused s v id := by
  have hsep : separator = [StorageEngine.hash] := by decide
  constructor
  · rintro ⟨r, hr⟩
    rw [stringEntry, hsep, List.append_assoc, List.append_assoc, List.append_eq_append_iff] at hr
    rcases hr with ⟨a, rfl, ha⟩ | ⟨a, rfl, ha⟩
    · cases a with
      | nil => exact Or.inl (List.append_nil s)
      | cons b a =>
        obtain ⟨rfl, -⟩ := List.cons.inj ha
        refine Or.inr (Or.inl ⟨a, ?_⟩)
        rw [hsep, List.append_assoc]
        rfl
    · cases a with
      | nil => exact Or.inl (List.append_nil v).symm
      | cons b a =>
        obtain ⟨rfl, hid⟩ := List.cons.inj ha
        refine Or.inr (Or.inr ⟨a, ?_, r, ?_⟩)
        · rw [hsep, List.append_assoc]
          rfl
        · rw [hsep, List.append_assoc]
          exact hid.symm
  · rintro (rfl | ⟨t, rfl⟩ | ⟨t, rfl, r, rfl⟩)
    · exact List.prefix_append _ id
    · refine ⟨t ++ separator ++ id, ?_⟩
      simp only [stringEntry, List.append_assoc]
    · refine ⟨r, ?_⟩
      simp only [stringEntry, List.append_assoc]

/-- **An entry out of place**: a string continues another, with a byte before `#`, or with `#` and
an entry that is not behind the id of the other. -/
def Misplaced (v id w id' : Bytes) : Prop :=
  ∃ b t, w = v ++ b :: t ∧
    (b < StorageEngine.hash ∨ b = StorageEngine.hash ∧ stringEntry t id' ≤ id)

theorem stringEntry_eq (v id : Bytes) : stringEntry v id = v ++ StorageEngine.hash :: id := by
  rw [stringEntry, List.append_assoc]
  rfl

/-- **What is out of place**: the greater string, when its entry is not behind the other. -/
theorem misplaced_iff {v id w id' : Bytes} :
    Misplaced v id w id' ↔ v < w ∧ stringEntry w id' ≤ stringEntry v id := by
  constructor
  · rintro ⟨b, t, rfl, hb⟩
    constructor
    · exact lt_of_le_of_ne (Bytes.le_of_isPrefix (List.prefix_append v _)) (by simp)
    · rw [stringEntry_eq, stringEntry_eq v, List.append_assoc, ← not_lt, Bytes.append_left_lt_iff,
        not_lt, List.cons_append, Bytes.cons_le_cons_iff, ← stringEntry_eq]
      exact hb
  · rintro ⟨hlt, hle⟩
    rcases Bytes.continues_or_differs v w with ⟨u, rfl⟩ | ⟨u, rfl⟩ | ⟨p, a, b, s, t, rfl, rfl, hne⟩
    · cases u with
      | nil => exact absurd hlt (by simp)
      | cons b t =>
        rw [stringEntry_eq, stringEntry_eq v, List.append_assoc, ← not_lt, Bytes.append_left_lt_iff,
          not_lt, List.cons_append, Bytes.cons_le_cons_iff, ← stringEntry_eq] at hle
        exact ⟨b, t, rfl, hle⟩
    · exact absurd hlt (not_lt.mpr (Bytes.le_of_isPrefix (List.prefix_append w u)))
    · -- the byte in which they differ decides both comparisons
      rw [stringEntry_eq, stringEntry_eq, List.append_assoc, List.append_assoc, List.cons_append,
        List.cons_append, ← not_lt, Bytes.differs_lt_iff hne] at hle
      exact absurd ((Bytes.differs_lt_iff hne p s t).mp hlt) hle

/-- **A string that `$gt` and `$lt` find on the side of the operand that it is on**: if it continues
the operand it does so with a byte after `#`, and where the operand continues it the operand is not
out of place. -/
def InPlace (s v id : Bytes) : Prop :=
  (∀ b t, v = s ++ b :: t → StorageEngine.hash < b) ∧ ¬Misplaced v id s []

theorem inPlace_iff {s v id : Bytes} : InPlace s v id ↔
    (s ++ separator ≤ stringEntry v id ∧ ¬s ++ separator <+: stringEntry v id ↔ s < v) ∧
      (stringEntry v id < s ++ separator ↔ v < s) := by
  have hentry : stringEntry s [] = s ++ separator := List.append_nil _
  constructor
  · rintro ⟨hbehind, hoperand⟩
    rw [misplaced_iff, hentry, not_and, not_le] at hoperand
    rcases lt_trichotomy s v with hlt | rfl | hlt
    · -- an entry that is not behind would be misplaced, one way or the other
      have hafter : s ++ separator < stringEntry v id := by
        refine not_le.mp fun hle => ?_
        obtain ⟨b, t, hv, hb | ⟨rfl, -⟩⟩ := misplaced_iff.mpr ⟨hlt, hle.trans_eq hentry.symm⟩
        · exact lt_asymm hb (hbehind b t hv)
        · exact lt_irrefl _ (hbehind _ t hv)
      have hprefix : ¬s ++ separator <+: stringEntry v id := by
        intro hp
        rcases prefix_stringEntry_iff.mp hp with rfl | ⟨t, rfl⟩ | ⟨t, rfl, -⟩
        · exact lt_irrefl _ hlt
        · exact lt_irrefl _ (hbehind StorageEngine.hash t (by rw [List.append_assoc]; rfl))
        · rw [List.append_assoc] at hlt
          exact absurd hlt (not_lt.mpr (Bytes.le_of_isPrefix (List.prefix_append _ _)))
      exact ⟨iff_of_true ⟨hafter.le, hprefix⟩ hlt, iff_of_false hafter.not_gt hlt.not_gt⟩
    · have hprefix : s ++ separator <+: stringEntry s id := List.prefix_append _ id
      exact ⟨iff_of_false (fun h => h.2 hprefix) (lt_irrefl s),
        iff_of_false (Bytes.le_of_isPrefix hprefix).not_gt (lt_irrefl s)⟩
    · have hbefore := hoperand hlt
      exact ⟨iff_of_false (fun h => absurd hbefore h.1.not_gt) hlt.not_gt, iff_of_true hbefore hlt⟩
  · rintro ⟨hgt, hlt⟩
    constructor
    · -- the entry of a continuation is behind, so what continues the operand is above the marker
      rintro b t rfl
      have hcontinues : s < s ++ b :: t :=
        lt_of_le_of_ne (Bytes.le_of_isPrefix (List.prefix_append s _)) (by simp)
      obtain ⟨hle, hprefix⟩ := hgt.mpr hcontinues
      rcases lt_trichotomy StorageEngine.hash b with hb | rfl | hb
      · exact hb
      · refine absurd (prefix_stringEntry_iff.mpr (Or.inr (Or.inl ⟨t, ?_⟩))) hprefix
        rw [List.append_assoc]
        rfl
      · have hmisplaced : Misplaced s [] (s ++ b :: t) id := ⟨b, t, rfl, Or.inl hb⟩
        have hbefore := (misplaced_iff.mp hmisplaced).2
        rw [hentry] at hbefore
        exact absurd ⟨[], by rw [List.append_nil, hle.antisymm hbefore]⟩ hprefix
    · intro hmisplaced
      obtain ⟨hvs, hle⟩ := misplaced_iff.mp hmisplaced
      exact absurd (hlt.mpr hvs) (not_lt.mpr (hentry ▸ hle))

/-! ### The entries of an exact index -/

/-- The entries of an exact index, where every value is a string. -/
theorem ExactIndex.mem_cursor_iff (h : ExactIndex codec e c f) (hall : AllStrings codec e c f)
    {key id : Bytes} : (key, id) ∈ e.cursor (c.getIndexCfName f) ↔
      ∃ v, StringAt codec e c f id v ∧ key = stringEntry v id := by
  rw [StorageEngine.mem_cursor]
  constructor
  · intro hentry
    obtain ⟨doc, hdoc, rfl, v, k, hv, hk, rfl⟩ := h.sound key id hentry
    obtain ⟨s, rfl⟩ := hall doc.id_ doc v hdoc hv
    obtain rfl : s = k := Except.ok.inj hk
    exact ⟨s, ⟨doc, hdoc, hv⟩, rfl⟩
  · rintro ⟨v, ⟨doc, hdoc, hv⟩, rfl⟩
    have hfield : hasIndexField doc.data_ f = true := Option.isSome_iff_exists.mpr ⟨_, hv⟩
    obtain ⟨key, hat, rfl, hlookup⟩ := h.complete id doc hdoc hfield
    have hat' : doc.EntryAt codec f (stringEntry v doc.id_) := ⟨.string v, v, hv, rfl, rfl⟩
    rwa [hat.unique hat'] at hlookup

/-- **The query finds the documents whose strings compare so**, each once. -/
def FindsStrings (codec : Codec) (e : StorageEngine) (c : Collection) (f : Bytes) (query : Json)
    (compares : Bytes → Prop) : Prop :=
  ∃ ids, c.findDocument codec e query = .ok ids ∧ ids.Nodup ∧
    ∀ id, id ∈ ids ↔ ∃ v, StringAt codec e c f id v ∧ compares v

/-- **When a scan finds what a query asks for**: when the entries it takes are those of the strings
that compare so. -/
theorem ExactIndex.findsStrings_iff (h : ExactIndex codec e c f) (hall : AllStrings codec e c f)
    {scan : List (Bytes × Bytes)} {Q compares : Bytes → Prop} {query : Json} (hnodup : scan.Nodup)
    (hscan : ∀ y, y ∈ scan ↔ y ∈ e.cursor (c.getIndexCfName f) ∧ Q y.1)
    (hfind : c.findDocument codec e query = .ok (scan.map Prod.snd)) :
    FindsStrings codec e c f query compares ↔
      ∀ id v, StringAt codec e c f id v → (Q (stringEntry v id) ↔ compares v) := by
  have hmem (id : Bytes) :
      id ∈ scan.map Prod.snd ↔ ∃ v, StringAt codec e c f id v ∧ Q (stringEntry v id) := by
    constructor
    · intro hid
      obtain ⟨⟨key, id⟩, hy, rfl⟩ := List.mem_map.mp hid
      obtain ⟨hy, hQ⟩ := (hscan _).mp hy
      obtain ⟨v, hv, rfl⟩ := (h.mem_cursor_iff hall).mp hy
      exact ⟨v, hv, hQ⟩
    · rintro ⟨v, hv, hQ⟩
      exact List.mem_map.mpr
        ⟨(stringEntry v id, id), (hscan _).mpr ⟨(h.mem_cursor_iff hall).mpr ⟨v, hv, rfl⟩, hQ⟩, rfl⟩
  constructor
  · rintro ⟨ids, hids, -, hexact⟩ id v hv
    obtain rfl : scan.map Prod.snd = ids := Except.ok.inj (hfind.symm.trans hids)
    constructor
    · intro hQ
      obtain ⟨w, hw, hcompares⟩ := (hexact id).mp ((hmem id).mpr ⟨v, hv, hQ⟩)
      rwa [hv.unique hw]
    · intro hcompares
      obtain ⟨w, hw, hQ⟩ := (hmem id).mp ((hexact id).mpr ⟨v, hv, hcompares⟩)
      rwa [hv.unique hw]
  · intro hcondition
    refine ⟨_, hfind, h.nodup hnodup fun y hy => ((hscan y).mp hy).1, fun id => ?_⟩
    rw [hmem id]
    exact exists_congr fun v => and_congr_right fun hv => hcondition id v hv

/-! ### Equality -/

/-- **`$eq` is exact**: it finds the documents with that string, each once. -/
def EqExact (codec : Codec) (e : StorageEngine) (c : Collection) (f s : Bytes) : Prop :=
  FindsStrings codec e c f (rangeQuery "$eq" f (.string s)) (· = s)

/-- What `$eq` finds: the list of indexes decides whether the index is looked at. -/
theorem findDocument_eq (hindex : c.getIndexCfName f ∈ e.columnFamilies_) :
    c.findDocument codec e (rangeQuery "$eq" f (.string s)) = .ok ((if Separable c.name_ then
      Scan.equal (s ++ separator) (e.cursor (c.getIndexCfName f)) else []).map Prod.snd) := by
  have hlisted : f ∈ e.getIndexNames c.name_ ↔ Separable c.name_ := by
    rw [StorageEngine.mem_getIndexNames]
    exact and_iff_right hindex
  have hstep : c.findStep codec e (e.getIndexNames c.name_) (Bytes.ofText "$eq")
      (.object [(f, .string s)]) [] = .ok (some ((if Separable c.name_ then
        Scan.equal (s ++ separator) (e.cursor (c.getIndexCfName f)) else []).map Prod.snd)) := by
    rw [Collection.findStep, if_pos rfl, Collection.findDocumentsUsingEq]
    simp only [Json.firstEntry, ok_bind, parseValue, hlisted, StorageEngine.fetchDocIdsForEqual,
      e.fetchDocIds_of_mem hindex]
    split_ifs <;> rfl
  rw [Collection.findDocument, rangeQuery]
  simp only [Json.entries, ok_bind, Collection.findAll, hstep]

/-- **When `$eq` is exact**: the index is listed, and no entry is taken for one of the operand; or
it is not listed, and there is nothing to be found. -/
theorem eqExact_iff (h : ExactIndex codec e c f) (hall : AllStrings codec e c f) :
    EqExact codec e c f s ↔
      if Separable c.name_ then ∀ id v, StringAt codec e c f id v → ¬Confused s v id
      else ∀ id, ¬StringAt codec e c f id s := by
  have hfind := @findDocument_eq codec e c f s h.mem
  have hsorted := e.sorted_cursor (c.getIndexCfName f)
  split_ifs with hseparable
  · rw [if_pos hseparable] at hfind
    rw [EqExact, h.findsStrings_iff hall (Scan.nodup_equal hsorted)
      (fun y => Scan.mem_equal hsorted) hfind]
    refine forall_congr' fun id => forall_congr' fun v => imp_congr_right fun _ => ?_
    rw [prefix_stringEntry_iff, or_iff_left_iff_imp]
    constructor
    · intro heq hconfused
      obtain rfl := heq hconfused
      exact not_confused_self v id hconfused
    · intro hnot hconfused
      exact absurd hconfused hnot
  · rw [if_neg hseparable] at hfind
    rw [EqExact, h.findsStrings_iff (Q := fun _ => False) hall List.nodup_nil
      (fun y => iff_of_false List.not_mem_nil And.right) hfind]
    constructor
    · intro hnone id hs
      exact (hnone id s hs).mpr rfl
    · rintro hnone id v hv
      exact iff_of_false not_false fun heq => hnone id (heq ▸ hv)

/-! ### Order -/

/-- **`$orderBy` is exact**: it lists the documents with the field, each once, and their strings do
not decrease. -/
def OrderExact (codec : Codec) (e : StorageEngine) (c : Collection) (f : Bytes) : Prop :=
  ∃ ids, c.findDocument codec e (rangeQuery "$orderBy" f (.string (Bytes.ofText "asc"))) = .ok ids ∧
    ids.Nodup ∧ (∀ id, id ∈ ids ↔ ∃ v, StringAt codec e c f id v) ∧
    ids.Pairwise fun id id' => ∀ v w, StringAt codec e c f id v → StringAt codec e c f id' w → v ≤ w

/-- **Queries respect the order of strings**: the one that sorts, and the ones for the strings
greater and less than an operand. -/
def StringsOrdered (codec : Codec) (e : StorageEngine) (c : Collection) (f s : Bytes) : Prop :=
  OrderExact codec e c f ∧ FindsStrings codec e c f (rangeQuery "$gt" f (.string s)) (s < ·) ∧
    FindsStrings codec e c f (rangeQuery "$lt" f (.string s)) (· < s)

theorem findDocument_orderBy (hindex : c.getIndexCfName f ∈ e.columnFamilies_) :
    c.findDocument codec e (rangeQuery "$orderBy" f (.string (Bytes.ofText "asc"))) =
      .ok ((e.cursor (c.getIndexCfName f)).map Prod.snd) := by
  have hstep : c.findStep codec e (e.getIndexNames c.name_) (Bytes.ofText "$orderBy")
      (.object [(f, .string (Bytes.ofText "asc"))]) [] =
      .ok (some ((e.cursor (c.getIndexCfName f)).map Prod.snd)) := by
    rw [Collection.findStep, if_neg (by decide), if_neg (by decide), if_neg (by decide),
      if_neg (by decide), if_neg (by decide), if_pos rfl, Collection.findOrdered]
    simp only [Json.firstEntry, ok_bind, Json.getString, StorageEngine.fetchDocIdsByOrder,
      e.fetchDocIds_of_mem hindex]
    rfl
  rw [Collection.findDocument, rangeQuery]
  simp only [Json.entries, ok_bind, Collection.findAll, hstep]

/-- **The empty string finds nothing**: its key is taken for one that could not be made. -/
theorem findDocument_nil : c.findDocument codec e (rangeQuery "$gt" f (.string [])) = .ok [] ∧
    c.findDocument codec e (rangeQuery "$lt" f (.string [])) = .ok [] := by
  constructor <;> rfl

theorem orderExact_iff (h : ExactIndex codec e c f) (hall : AllStrings codec e c f) :
    OrderExact codec e c f ↔ ∀ id v id' w, StringAt codec e c f id v →
      StringAt codec e c f id' w → ¬Misplaced v id w id' := by
  have hfind := @findDocument_orderBy codec e c f h.mem
  have hsorted := e.sorted_cursor (c.getIndexCfName f)
  constructor
  · rintro ⟨ids, hids, -, -, hordered⟩ id v id' w hv hw hmisplaced
    obtain rfl := Except.ok.inj (hfind.symm.trans hids)
    obtain ⟨hvw, hle⟩ := misplaced_iff.mp hmisplaced
    have hmem := (h.mem_cursor_iff hall).mpr ⟨v, hv, rfl⟩
    have hmem' := (h.mem_cursor_iff hall).mpr ⟨w, hw, rfl⟩
    rcases hle.lt_or_eq with hlt | heq
    · exact absurd hvw (not_lt.mpr
        (hsorted.rel_of_lt (List.pairwise_map.mp hordered) hmem' hmem hlt w v hw hv))
    · -- two entries with one key are one entry
      rw [heq, StorageEngine.mem_cursor] at hmem'
      obtain rfl := Option.some.inj ((StorageEngine.mem_cursor.mp hmem).symm.trans hmem')
      exact absurd hvw ((hv.unique hw) ▸ lt_irrefl v)
  · intro hcondition
    refine ⟨_, hfind, h.nodup (hsorted.imp fun hlt heq => ?_) fun y hy => hy, fun id => ?_, ?_⟩
    · exact absurd (heq ▸ hlt) (lt_irrefl _)
    · constructor
      · intro hid
        obtain ⟨⟨key, id⟩, hy, rfl⟩ := List.mem_map.mp hid
        obtain ⟨v, hv, -⟩ := (h.mem_cursor_iff hall).mp hy
        exact ⟨v, hv⟩
      · rintro ⟨v, hv⟩
        exact List.mem_map.mpr ⟨_, (h.mem_cursor_iff hall).mpr ⟨v, hv, rfl⟩, rfl⟩
    · refine List.pairwise_map.mpr (List.Pairwise.imp_of_mem ?_ hsorted)
      rintro ⟨key, id⟩ ⟨key', id'⟩ hy hy' hlt v w hv hw
      obtain ⟨v', hv', rfl⟩ := (h.mem_cursor_iff hall).mp hy
      obtain ⟨w', hw', rfl⟩ := (h.mem_cursor_iff hall).mp hy'
      obtain rfl := hv.unique hv'
      obtain rfl := hw.unique hw'
      exact not_lt.mp fun hwv => hcondition id' w id v hw hv (misplaced_iff.mpr ⟨hwv, hlt.le⟩)

/-- **When queries respect the order of strings**: no entry is out of place, and every string is on
its side of the operand; where the operand is empty, there is no other string. -/
theorem stringsOrdered_iff (h : ExactIndex codec e c f) (hall : AllStrings codec e c f) :
    StringsOrdered codec e c f s ↔
      (∀ id v id' w, StringAt codec e c f id v → StringAt codec e c f id' w →
        ¬Misplaced v id w id') ∧
      ∀ id v, StringAt codec e c f id v → if s = [] then v = [] else InPlace s v id := by
  rw [StringsOrdered, orderExact_iff h hall]
  refine and_congr_right fun _ => ?_
  have hsorted := e.sorted_cursor (c.getIndexCfName f)
  by_cases hs : s = []
  · subst hs
    simp only [if_true]
    rw [h.findsStrings_iff (Q := fun _ => False) hall List.nodup_nil
        (fun y => iff_of_false List.not_mem_nil And.right) findDocument_nil.1,
      h.findsStrings_iff (Q := fun _ => False) hall List.nodup_nil
        (fun y => iff_of_false List.not_mem_nil And.right) findDocument_nil.2]
    constructor
    · rintro ⟨hgt, -⟩ id v hv
      exact ((Bytes.nil_le v).lt_or_eq.resolve_left fun hlt => (hgt id v hv).mpr hlt).symm
    · intro hempty
      constructor
      · intro id v hv
        exact iff_of_false not_false fun hlt => absurd (hempty id v hv ▸ hlt) (lt_irrefl _)
      · intro id v _
        exact iff_of_false not_false (List.not_lt_nil v)
  · simp only [if_neg hs]
    rw [h.findsStrings_iff
        (Q := fun key => s ++ separator ≤ key ∧ ¬s ++ separator <+: key) hall
        (Scan.nodup_greater hsorted) (fun y => Scan.mem_greater hsorted)
        (findDocument_gt h.mem rfl hs),
      h.findsStrings_iff (Q := (· < s ++ separator)) hall
        (Scan.nodup_lesser hsorted) (fun y => Scan.mem_lesser hsorted)
        (findDocument_lt h.mem h.hash_mem rfl hs)]
    constructor
    · rintro ⟨hgt, hlt⟩ id v hv
      exact inPlace_iff.mpr ⟨hgt id v hv, hlt id v hv⟩
    · intro hplace
      exact ⟨fun id v hv => (inPlace_iff.mp (hplace id v hv)).1,
        fun id v hv => (inPlace_iff.mp (hplace id v hv)).2⟩

/-! ### An index of one string -/

/-- An indexed collection with one document, `a`, which has a string in the field. -/
def oneString (s : Bytes) : StorageEngine :=
  Operation.afterAll .standard .fresh [.createCollection letterC.name_,
    .createIndex letterC (Bytes.ofText "f"),
    .document letterC (.create ⟨0, fun _ => 0⟩
      ⟨Bytes.ofText "a", .object [(Bytes.ofText "f", .string s)]⟩)]

/-- The document as it is stored. -/
def stringStored (s : Bytes) : Document :=
  ⟨Bytes.ofText "a", .object [(idField, .string (Bytes.ofText "a")), (Bytes.ofText "f", .string s)]⟩

theorem document_oneString {s id : Bytes} {doc : Document} :
    (oneString s).document .standard letterC.name_ id = some doc ↔
      id = Bytes.ofText "a" ∧ doc = stringStored s := by
  have hcursor : (oneString s).cursor letterC.name_ =
      [(Bytes.ofText "a", (stringStored s).to_msgpack .standard)] := by rfl
  have hlookup (serialized : Bytes) : (oneString s).lookup letterC.name_ id = some serialized ↔
      id = Bytes.ofText "a" ∧ serialized = (stringStored s).to_msgpack .standard := by
    rw [← StorageEngine.mem_cursor, hcursor, List.mem_singleton, Prod.mk.injEq]
  rw [StorageEngine.document, Option.bind_eq_some_iff]
  constructor
  · rintro ⟨serialized, hstored, hdoc⟩
    obtain ⟨hid, rfl⟩ := (hlookup serialized).mp hstored
    rw [Document.from_msgpack_to_msgpack] at hdoc
    exact ⟨hid, (Option.some.inj hdoc).symm⟩
  · rintro ⟨hid, rfl⟩
    refine ⟨_, (hlookup _).mpr ⟨hid, rfl⟩, ?_⟩
    rw [Document.from_msgpack_to_msgpack]
    rfl

theorem stringAt_oneString {s id v : Bytes} :
    StringAt .standard (oneString s) letterC (Bytes.ofText "f") id v ↔
      id = Bytes.ofText "a" ∧ v = s := by
  have hfield : (stringStored s).data_.find? (Bytes.ofText "f") = some (.string s) := by rfl
  constructor
  · rintro ⟨doc, hdoc, hv⟩
    obtain ⟨rfl, rfl⟩ := document_oneString.mp hdoc
    exact ⟨rfl, Json.string.inj (Option.some.inj (hv.symm.trans hfield))⟩
  · rintro ⟨rfl, rfl⟩
    exact ⟨_, document_oneString.mpr ⟨rfl, rfl⟩, hfield⟩

theorem allStrings_oneString (s : Bytes) :
    AllStrings .standard (oneString s) letterC (Bytes.ofText "f") := by
  intro id doc v hdoc hv
  obtain ⟨-, rfl⟩ := document_oneString.mp hdoc
  exact ⟨s, (Option.some.inj (Eq.trans (by rfl) hv)).symm⟩

theorem exactIndex_oneString (s : Bytes) :
    ExactIndex .standard (oneString s) letterC (Bytes.ofText "f") := by
  have hcursor : (oneString s).cursor (letterC.getIndexCfName (Bytes.ofText "f")) =
      [(stringEntry s (Bytes.ofText "a"), Bytes.ofText "a")] := by rfl
  have hlookup (key id : Bytes) :
      (oneString s).lookup (letterC.getIndexCfName (Bytes.ofText "f")) key = some id ↔
        key = stringEntry s (Bytes.ofText "a") ∧ id = Bytes.ofText "a" := by
    rw [← StorageEngine.mem_cursor, hcursor, List.mem_singleton, Prod.mk.injEq]
  have hat : (stringStored s).EntryAt .standard (Bytes.ofText "f") (stringEntry s (Bytes.ofText "a")) :=
    ⟨_, _, rfl, rfl, rfl⟩
  refine ⟨StorageEngine.mem_of_lookup ((hlookup _ _).mpr ⟨rfl, rfl⟩), ?_, ?_⟩
  · intro key id hentry
    obtain ⟨rfl, rfl⟩ := (hlookup key id).mp hentry
    exact ⟨_, document_oneString.mpr ⟨rfl, rfl⟩, rfl, hat⟩
  · intro id doc hdoc _
    obtain ⟨rfl, rfl⟩ := document_oneString.mp hdoc
    exact ⟨_, hat, rfl, (hlookup _ _).mpr ⟨rfl, rfl⟩⟩

theorem eqExact_b :
    EqExact .standard (oneString (Bytes.ofText "b")) letterC (Bytes.ofText "f") (Bytes.ofText "b") := by
  refine (eqExact_iff (exactIndex_oneString _) (allStrings_oneString _)).mpr ?_
  rw [if_pos (by decide)]
  intro id v hv
  obtain ⟨rfl, rfl⟩ := stringAt_oneString.mp hv
  exact not_confused_self _ _

theorem stringsOrdered_b :
    StringsOrdered .standard (oneString (Bytes.ofText "b")) letterC (Bytes.ofText "f")
      (Bytes.ofText "a") := by
  refine (stringsOrdered_iff (exactIndex_oneString _) (allStrings_oneString _)).mpr ⟨?_, ?_⟩
  · intro id v id' w hv hw hmisplaced
    obtain ⟨-, rfl⟩ := stringAt_oneString.mp hv
    obtain ⟨-, rfl⟩ := stringAt_oneString.mp hw
    exact lt_irrefl _ (misplaced_iff.mp hmisplaced).1
  · intro id v hv
    obtain ⟨rfl, rfl⟩ := stringAt_oneString.mp hv
    rw [if_neg (by decide), inPlace_iff]
    decide

/-- **A string that goes on with a byte before `#` is not greater than its beginning.** -/
theorem not_stringsOrdered_of_exclamation :
    ExactIndex .standard (oneString (Bytes.ofText "a!")) letterC (Bytes.ofText "f") ∧
      AllStrings .standard (oneString (Bytes.ofText "a!")) letterC (Bytes.ofText "f") ∧
      ¬StringsOrdered .standard (oneString (Bytes.ofText "a!")) letterC (Bytes.ofText "f")
        (Bytes.ofText "a") := by
  refine ⟨exactIndex_oneString _, allStrings_oneString _, ?_⟩
  rintro ⟨-, ⟨ids, hids, -, hmem⟩, -⟩
  obtain rfl : [] = ids := Except.ok.inj (Eq.trans (by rfl) hids)
  exact List.not_mem_nil ((hmem (Bytes.ofText "a")).mpr
    ⟨Bytes.ofText "a!", stringAt_oneString.mpr ⟨rfl, rfl⟩, by decide⟩)

/-- **A string that goes on with `#` is found as the beginning it has.** -/
theorem not_eqExact_of_continued :
    ExactIndex .standard (oneString (Bytes.ofText "b#c")) letterC (Bytes.ofText "f") ∧
      AllStrings .standard (oneString (Bytes.ofText "b#c")) letterC (Bytes.ofText "f") ∧
      ¬EqExact .standard (oneString (Bytes.ofText "b#c")) letterC (Bytes.ofText "f")
        (Bytes.ofText "b") := by
  refine ⟨exactIndex_oneString _, allStrings_oneString _, ?_⟩
  rintro ⟨ids, hids, -, hmem⟩
  obtain rfl : [Bytes.ofText "a"] = ids := Except.ok.inj (Eq.trans (by rfl) hids)
  obtain ⟨v, hv, hvb⟩ := (hmem _).mp (List.mem_singleton.mpr rfl)
  obtain ⟨-, rfl⟩ := stringAt_oneString.mp hv
  exact absurd hvb (by decide)

end AnuDB
