import AnuDB.StorageEngine

/-!
# Names of collections and of index families

Collections and indexes share one namespace. The family of the index of `c` on `f` is
`AnuDB.indexFamily c f`, the two names joined by `__index__`; reading the list of indexes
goes the other way and splits a family's name at the **first** `__index__`.

The split gives `AnuDB.owner c` for the collection, whatever the field
(`AnuDB.splitIndexName_indexFamily`), so whether it is `c` that comes back depends on `c`
alone: that is `AnuDB.Separable`. It fails for a name that contains the delimiter, and also
for one like `x__index` that ends in a part of it. The indexes `getIndexNames` lists for a
collection are the families that are there, if the collection's name is separable, and
none if it is not (`AnuDB.StorageEngine.mem_getIndexNames`).
-/

namespace AnuDB

/-- The family of the index of a collection on a field. -/
def indexFamily (c f : Bytes) : Bytes := c ++ index_delimiter_ ++ f

/-- The collection an index family of `c` is listed under. -/
def owner (c : Bytes) : Bytes :=
  (c ++ index_delimiter_).take
    ((Bytes.find index_delimiter_ (c ++ index_delimiter_)).getD c.length)

/-- **The indexes of `c` are listed under `c`.** -/
def Separable (c : Bytes) : Prop := owner c = c

instance (c : Bytes) : Decidable (Separable c) := inferInstanceAs (Decidable (_ = _))

theorem length_index_delimiter_ : index_delimiter_.length = 9 := rfl

theorem indexFamily_injective {c f f' : Bytes} (h : indexFamily c f = indexFamily c f') :
    f = f' :=
  List.append_cancel_left h

theorem indexFamily_ne (c f : Bytes) : indexFamily c f ≠ c := by
  intro h
  have hlen := congrArg List.length h
  rw [indexFamily, List.length_append, List.length_append, length_index_delimiter_] at hlen
  omega

theorem delimiter_infix_indexFamily (c f : Bytes) : index_delimiter_ <:+: indexFamily c f :=
  ⟨c, f, rfl⟩

theorem ne_default_of_delimited {n : Bytes} (h : index_delimiter_ <:+: n) :
    n ≠ kDefaultColumnFamilyName := by
  rintro rfl
  exact Bytes.find_eq_none_iff.mp (by decide) h

/-- The owner and where it ends, out of one occurrence. -/
theorem owner_spec (c : Bytes) :
    Bytes.find index_delimiter_ (c ++ index_delimiter_) = some (owner c).length ∧
      owner c = c.take (owner c).length := by
  obtain ⟨p, hp, hle⟩ := Bytes.exists_find_append index_delimiter_ c
  have hown : owner c = c.take p := by
    rw [owner, hp, Option.getD_some, List.take_append_of_le_length hle]
  have hlen : (owner c).length = p := by
    rw [hown, List.length_take, Nat.min_eq_left hle]
  exact ⟨by rw [hlen, hp], by rw [hlen, hown]⟩

theorem separable_iff (c : Bytes) :
    Separable c ↔ Bytes.find index_delimiter_ (c ++ index_delimiter_) = some c.length := by
  obtain ⟨hfind, htake⟩ := owner_spec c
  constructor
  · intro h
    rw [hfind, h]
  · intro h
    rw [hfind] at h
    rw [Separable, htake, Option.some.inj h, List.take_length]

/-- A separable name has no delimiter in it. -/
theorem Separable.not_delimited {c : Bytes} (h : Separable c) : ¬index_delimiter_ <:+: c := by
  intro hin
  rcases hf : Bytes.find index_delimiter_ c with _ | p
  · exact Bytes.find_eq_none_iff.mp hf hin
  · have happ := Bytes.find_append hf index_delimiter_
    rw [(separable_iff c).mp h] at happ
    obtain ⟨-, hd, -⟩ := Bytes.find_eq_some_iff.mp hf
    rw [← Option.some.inj happ, List.drop_length] at hd
    exact absurd hd.length_le (by decide)

namespace StorageEngine

/-- An index family's name is split into the owner and what follows the delimiter. -/
theorem splitIndexName_eq_some_iff {n a g : Bytes} :
    splitIndexName n = some (a, g) ↔ n = indexFamily a g ∧ Separable a := by
  constructor
  · intro h
    rw [splitIndexName] at h
    split_ifs at h with hdef
    obtain ⟨p, hp, hpair⟩ := Option.map_eq_some_iff.mp h
    obtain ⟨rfl, rfl⟩ := Prod.mk.inj hpair
    have hn := Bytes.take_append_drop_of_find hp
    refine ⟨hn.symm, ?_⟩
    obtain ⟨q, hq, -⟩ := Bytes.exists_find_append index_delimiter_ (n.take p)
    have hqp := Bytes.find_append hq (n.drop (p + index_delimiter_.length))
    rw [hn, hp] at hqp
    have hlen : (n.take p).length = p := by
      rw [List.length_take, Nat.min_eq_left (Bytes.find_eq_some_iff.mp hp).1]
    rw [separable_iff, hq, hlen, Option.some.inj hqp]
  · rintro ⟨rfl, hsep⟩
    have hfind := Bytes.find_append ((separable_iff a).mp hsep) g
    rw [splitIndexName, if_neg (ne_default_of_delimited (delimiter_infix_indexFamily a g))]
    have hdrop : (a ++ index_delimiter_ ++ g).drop (a.length + index_delimiter_.length) = g := by
      rw [← List.length_append, List.drop_left]
    rw [indexFamily, hfind, Option.map_some, hdrop, List.append_assoc, List.take_left]

/-- **The indexes listed for a collection** are those whose family is there, and none if
the name of the collection is not separable. -/
theorem mem_getIndexNames {e : StorageEngine} {c g : Bytes} :
    g ∈ e.getIndexNames c ↔ indexFamily c g ∈ e.columnFamilies_ ∧ Separable c := by
  rw [getIndexNames, List.mem_filterMap]
  constructor
  · rintro ⟨n, hn, hbind⟩
    obtain ⟨⟨a, i⟩, hsplit, hif⟩ := Option.bind_eq_some_iff.mp hbind
    obtain ⟨rfl, hsep⟩ := splitIndexName_eq_some_iff.mp hsplit
    simp only [Option.ite_none_right_eq_some, Option.some.injEq] at hif
    obtain ⟨rfl, rfl⟩ := hif
    exact ⟨Std.ExtTreeMap.mem_keys.mp hn, hsep⟩
  · rintro ⟨hmem, hsep⟩
    refine ⟨indexFamily c g, Std.ExtTreeMap.mem_keys.mpr hmem, ?_⟩
    rw [splitIndexName_eq_some_iff.mpr ⟨rfl, hsep⟩]
    simp

theorem nodup_getIndexNames (e : StorageEngine) (c : Bytes) : (e.getIndexNames c).Nodup := by
  refine List.Nodup.filterMap ?_ Std.ExtTreeMap.nodup_keys
  intro n n' g hn hn'
  simp only [Option.mem_def, Option.bind_eq_some_iff, Prod.exists] at hn hn'
  obtain ⟨a, i, hsplit, hif⟩ := hn
  obtain ⟨a', i', hsplit', hif'⟩ := hn'
  simp only [Option.ite_none_right_eq_some, Option.some.injEq] at hif hif'
  obtain ⟨rfl, rfl⟩ := hif
  obtain ⟨rfl, rfl⟩ := hif'
  rw [(splitIndexName_eq_some_iff.mp hsplit).1, (splitIndexName_eq_some_iff.mp hsplit').1]

/-- **An index family of `c` is listed under the owner of `c`**, whatever the field. -/
theorem splitIndexName_indexFamily (c f : Bytes) :
    ∃ g, splitIndexName (indexFamily c f) = some (owner c, g) := by
  obtain ⟨hfind, htake⟩ := owner_spec c
  have hle : (owner c).length ≤ c.length := by
    rw [htake, List.length_take]
    exact Nat.min_le_right _ _
  have hn := Bytes.find_append hfind f
  have htaken : (indexFamily c f).take (owner c).length = owner c := by
    rw [indexFamily, List.append_assoc, List.take_append_of_le_length hle, ← htake]
  refine ⟨(indexFamily c f).drop ((owner c).length + index_delimiter_.length), ?_⟩
  rw [splitIndexName, if_neg (ne_default_of_delimited (delimiter_infix_indexFamily c f))]
  change Option.map _ (Bytes.find index_delimiter_ (c ++ index_delimiter_ ++ f)) = _
  rw [hn, Option.map_some, htaken]

/-- Two families that are one are listed under one collection. -/
theorem owner_eq_of_indexFamily_eq {a b f g : Bytes} (hb : Separable b)
    (h : indexFamily a f = indexFamily b g) : owner a = b := by
  obtain ⟨g', hsplit⟩ := splitIndexName_indexFamily a f
  rw [splitIndexName_eq_some_iff.mpr ⟨h, hb⟩] at hsplit
  exact (Prod.mk.inj (Option.some.inj hsplit)).1.symm

end StorageEngine

end AnuDB
