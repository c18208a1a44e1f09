import AnuDB.DropCollection

/-!
# Do collections interfere?

Every request that is addressed to a collection works on the family of its name and on
families whose names begin with it and the delimiter (`AnuDB.Request.uses_perform`). So two
collections are kept apart if these families are (`AnuDB.apart_iff`), and that is a matter of
their names: it fails exactly if one of `a__index__` and `b__index__` begins with the other
(`AnuDB.Clash`). Then some index of the one has the family of an index of the other.

The names need not contain the delimiter for that: `x__index` and `x` clash, as `x__index__`
is the beginning of `x__index__index__`.
-/

namespace AnuDB

open Effect

/-! ### Requests -/

/-- What is asked of a collection. -/
inductive Request where
  /-- A method of its object is called. -/
  | method (call : CollectionCall) : Request
  /-- `Database::dropCollection`. -/
  | drop : Request
  /-- Its object is destroyed. -/
  | destroy : Request

/-- The request, made of the collection of a name. -/
def Request.perform (codec : Codec) (db : Database) (name : Bytes) : Request → Engine Database
  | .method call => do
    let _ ← (call.operation ⟨name⟩).perform codec
    return db
  | .drop => Prod.snd <$> db.dropCollection name
  | .destroy => do
    Collection.destroy ⟨name⟩
    return db

/-- **A step**: a request is made of the collection of a name, and ends in some way. -/
def Request.Step (codec : Codec) (name : Bytes) (s : Session) (request : Request)
    (s' : Session) : Prop :=
  ∃ fates outcome w', (request.perform codec s.database name).run ⟨s.engine, fates⟩ =
    (outcome, w') ∧ w'.engine = s'.engine ∧
      (outcome = .ret s'.database ∨ (∀ db, outcome ≠ .ret db) ∧ s'.database = s.database)

/-- **A collection is as it was**: its documents, its indexes, and their entries. An index
is there if it is listed, and its entries can be read if its family is. -/
structure Untouched (name : Bytes) (e e' : StorageEngine) : Prop where
  /-- The documents are the same. -/
  documents : e'.contents name = e.contents name
  /-- The same indexes are listed. -/
  indexes : e'.getIndexNames name = e.getIndexNames name
  /-- Every index has the entries it had. -/
  entries : ∀ f, e'.contents (indexFamily name f) = e.contents (indexFamily name f)

/-- **Requests to the one collection leave the other as it is**, in whatever state that is
reached, whatever comes of them. -/
def Apart (codec : Codec) (a b : Bytes) : Prop :=
  ∀ s, s.Reachable codec → a ∈ s.engine.columnFamilies_ → b ∈ s.engine.columnFamilies_ →
    ∀ history s', History.Run (Request.Step codec a) s history s' →
      Untouched b s.engine s'.engine

/-! ### The names -/

/-- **One of `a__index__` and `b__index__` begins with the other.** -/
def Clash (a b : Bytes) : Prop :=
  a ++ index_delimiter_ <+: b ++ index_delimiter_ ∨ b ++ index_delimiter_ <+: a ++ index_delimiter_

instance (a b : Bytes) : Decidable (Clash a b) := inferInstanceAs (Decidable (_ ∨ _))

variable {codec : Codec} {a b : Bytes}

/-- Names clash exactly if an index of the one has the family of an index of the other. -/
theorem clash_iff_exists : Clash a b ↔ ∃ f g, indexFamily a f = indexFamily b g := by
  constructor
  · rintro (⟨t, ht⟩ | ⟨t, ht⟩)
    · exact ⟨t, [], by rw [indexFamily, indexFamily, ht, List.append_nil]⟩
    · exact ⟨[], t, by rw [indexFamily, indexFamily, ht, List.append_nil]⟩
  · rintro ⟨f, g, h⟩
    have hb : b ++ index_delimiter_ <+: indexFamily a f := h ▸ List.prefix_append _ g
    exact List.prefix_or_prefix_of_prefix (List.prefix_append _ f) hb

theorem not_clash_iff : ¬Clash a b ↔ ∀ f g, indexFamily a f ≠ indexFamily b g := by
  rw [clash_iff_exists]
  exact ⟨fun h f g hfg => h ⟨f, g, hfg⟩, fun h ⟨f, g, hfg⟩ => h f g hfg⟩

/-- Where the names do not clash, no collection is an index of the other, and they are not
the same. -/
theorem not_within_of_not_clash (h : ¬Clash a b) : b ≠ a ∧ (∀ f, b ≠ indexFamily a f) ∧
    ∀ g, indexFamily b g ≠ a ∧ ∀ f, indexFamily b g ≠ indexFamily a f := by
  have hne := not_clash_iff.mp h
  refine ⟨?_, fun f hf => ?_, fun g => ⟨fun hg => ?_, fun f hf => hne f g hf.symm⟩⟩
  · rintro rfl
    exact hne [] [] rfl
  · refine hne (f ++ index_delimiter_) [] ?_
    rw [hf, indexFamily, indexFamily, indexFamily]
    simp only [List.append_assoc, List.append_nil]
  · refine hne [] (g ++ index_delimiter_) ?_
    rw [← hg, indexFamily, indexFamily, indexFamily]
    simp only [List.append_assoc, List.append_nil]

/-! ### What a request touches -/

namespace Database

variable {db : Database} {name : Bytes}

theorem uses_erase : (db.erase name).Uses (Call.OnIndexes name) := by
  rw [erase]
  rcases hfind : db.find name with _ | c
  · trivial
  · obtain rfl : c.name_ = name := by simpa using List.find?_some hfind
    exact Prog.Uses.bind Collection.uses_destroy fun _ => Prog.uses_pure _

/-- What `getCollection` gives has the name it was asked for. -/
theorem uses_getCollection_bind {α : Type} {k : Option Collection × Database → Engine α}
    (hnone : ∀ db, (k (none, db)).Uses (Call.Within name))
    (hsome : ∀ db, (k (some ⟨name⟩, db)).Uses (Call.Within name)) :
    (db.getCollection name >>= k).Uses (Call.Within name) := by
  rw [getCollection]
  rcases hfind : db.find name with _ | c
  · simp only
    rw [Engine.collectionExists, bind_assoc]
    refine Prog.Uses.bind (Prog.uses_perform.mpr fun n hn => absurd hn id) fun found => ?_
    split_ifs
    · exact hsome _
    · exact hnone _
  · obtain rfl : c.name_ = name := by simpa using List.find?_some hfind
    exact hsome db

theorem uses_dropCollection : (db.dropCollection name).Uses (Call.Within name) := by
  refine Prog.Uses.bind (uses_erase.mono fun x => Call.OnIndexes.within) fun db => ?_
  refine uses_getCollection_bind (fun db => Prog.uses_raise _) fun db => ?_
  refine Prog.Uses.bind
    (Prog.uses_perform.mpr (Call.reads_getIndexNames name).onIndexes.within) fun indexes => ?_
  have hindexes := Collection.uses_deleteIndexes (c := ⟨name⟩) indexes
  refine Prog.Uses.bind (hindexes.mono fun x => Call.OnIndexes.within) fun _ => ?_
  refine Prog.Uses.bind (Prog.uses_perform.mpr ?_) fun status => Prog.uses_pure _
  rintro n rfl
  exact Or.inl rfl

end Database

/-- **A request touches the family of the name it is addressed to and families that are named
like its indexes**, and no others. -/
theorem Request.uses_perform {db : Database} {name : Bytes} (request : Request) :
    (request.perform codec db name).Uses (Call.Within name) := by
  cases request with
  | method call =>
    refine Prog.Uses.bind ?_ fun _ => Prog.uses_pure _
    cases call with
    | document call => exact call.uses_perform
    | createIndex index => exact (Collection.uses_createIndex none index).mono fun x h => h.within
    | deleteIndex index => exact (Collection.uses_deleteIndex index).mono fun x h => h.within
  | drop => exact Prog.Uses.bind Database.uses_dropCollection fun _ => Prog.uses_pure _
  | destroy =>
    refine Prog.Uses.bind ?_ fun _ => Prog.uses_pure _
    exact (Collection.uses_destroy (c := ⟨name⟩)).mono fun x h => h.within

namespace Untouched

variable {name : Bytes} {e e' e'' : StorageEngine}

theorem refl (name : Bytes) (e : StorageEngine) : Untouched name e e := ⟨rfl, rfl, fun _ => rfl⟩

theorem trans (h : Untouched name e e') (h' : Untouched name e' e'') : Untouched name e e'' :=
  ⟨h'.documents.trans h.documents, h'.indexes.trans h.indexes,
    fun f => (h'.entries f).trans (h.entries f)⟩

/-- Which indexes are listed is told by the families that are there. -/
theorem of_contents (h : e'.contents name = e.contents name)
    (hindexes : ∀ f, e'.contents (indexFamily name f) = e.contents (indexFamily name f)) :
    Untouched name e e' := by
  refine ⟨h, ?_, hindexes⟩
  refine StorageEngine.getIndexNames_eq_of_mem_iff (StorageEngine.pairwise_getIndexNames e name)
    fun g => ?_
  rw [StorageEngine.mem_getIndexNames, StorageEngine.mem_getIndexNames,
    StorageEngine.mem_congr (hindexes g)]

end Untouched

/-- **A step that is addressed to a name leaves every collection as it is whose name does not
clash.** -/
theorem Request.Step.untouched (h : ¬Clash a b) {s s' : Session} {request : Request}
    (hstep : request.Step codec a s s') : Untouched b s.engine s'.engine := by
  obtain ⟨fates, outcome, w', hrun, hengine, -⟩ := hstep
  obtain ⟨hne, hcollection, hindexes⟩ := not_within_of_not_clash h
  have hframe {n : Bytes} (hn : n ≠ a) (hnf : ∀ f, n ≠ indexFamily a f) :
      s'.engine.contents n = s.engine.contents n := by
    have hcontents := Engine.contents_run (n := n) (w := ⟨s.engine, fates⟩)
      ((@Request.uses_perform codec s.database a request).mono fun x hx ht =>
        (hx n ht).elim hn fun ⟨f, hf⟩ => hnf f hf)
    rwa [hrun, hengine] at hcontents
  exact Untouched.of_contents (hframe hne hcollection)
    fun g => hframe (hindexes g).1 (hindexes g).2

/-! ### Names that clash -/

/-- A session in which collections have been created, and nothing else: every family is
empty, and the cache has objects of collections only. -/
structure Blank (codec : Codec) (s : Session) : Prop where
  /-- Calls lead there. -/
  reachable : s.Reachable codec
  /-- The database is open. -/
  opened : s.engine.db_ = .opened
  /-- The objects in the cache are those of families that are there. -/
  cached : ∀ c ∈ s.database.collections_, c.name_ ∈ s.engine.columnFamilies_
  /-- The families are empty. -/
  empty : ∀ n ∈ s.engine.columnFamilies_, s.engine.contents n = some ∅

/-- A family is created. -/
theorem StorageEngine.createCollection_none {e : StorageEngine} {n : Bytes}
    (hn : n ∉ e.columnFamilies_) (hdb : e.db_ = .opened) : e.createCollection none n =
      (.ok .OK, e.withFamilies (e.columnFamilies_.insert n ∅)) := by
  rw [createCollection, if_neg hn, if_neg (not_not.mpr hdb)]

/-- A database that has just been opened. -/
theorem exists_blank (codec : Codec) : ∃ s, Blank codec s ∧
    ∀ n ∈ s.engine.columnFamilies_, n = kDefaultColumnFamilyName := by
  have hmem {n : Bytes} (hn : n ∈ (∅ : ColumnFamilies).insert kDefaultColumnFamilyName ∅) :
      kDefaultColumnFamilyName = n := by
    simpa [Std.LawfulEqCmp.compare_eq_iff_eq] using hn
  refine ⟨Session.new.after codec .open, ⟨Session.reachable_new.after rfl, rfl, ?_, ?_⟩, ?_⟩
  · intro c hc
    exact absurd hc List.not_mem_nil
  · intro n hn
    obtain rfl := hmem hn
    exact Std.ExtTreeMap.getElem?_insert_self
  · exact fun n hn => (hmem hn).symm

/-- **A collection is created**, unless there is a family of the name. -/
theorem Blank.create {s : Session} (h : Blank codec s) (name : Bytes) : ∃ s', Blank codec s' ∧
    ∀ n, n ∈ s'.engine.columnFamilies_ ↔ n = name ∨ n ∈ s.engine.columnFamilies_ := by
  by_cases hname : name ∈ s.engine.columnFamilies_
  · refine ⟨s, h, fun n => ⟨Or.inr, ?_⟩⟩
    rintro (rfl | hn)
    · exact hname
    · exact hn
  -- what is cached has a family, so there is no object of the name
  have hfind : s.database.find name = none := by
    rw [Database.find, List.find?_eq_none]
    intro c hc heq
    exact hname (of_decide_eq_true heq ▸ h.cached c hc)
  set e' := s.engine.withFamilies (s.engine.columnFamilies_.insert name ∅) with he'
  have hfamilies : e'.columnFamilies_ = s.engine.columnFamilies_.insert name ∅ :=
    StorageEngine.columnFamilies_withFamilies h.opened
  have hexec : s.engine.exec none (.createCollection name) = (.ok .OK, e') :=
    StorageEngine.createCollection_none hname h.opened
  have hcreate : (s.database.createCollection name).run (.calm s.engine) =
      (.ret (.OK, { s.database with collections_ := ⟨name⟩ :: s.database.collections_ }),
        .calm e') := by
    rw [Database.createCollection, Engine.createCollection, bind_assoc,
      Engine.run_call_bind_calm, hexec]
    change Engine.run (s.database.erase name >>= _) _ = _
    rw [Database.erase, hfind]
    rfl
  have hrun : (SessionCall.perform codec s.database (.createCollection name)).run
      (.calm s.engine) =
      (.ret { s.database with collections_ := ⟨name⟩ :: s.database.collections_ }, .calm e') :=
    Engine.run_bind_of_ret hcreate
  have hmem (n : Bytes) : n ∈ e'.columnFamilies_ ↔ n = name ∨ n ∈ s.engine.columnFamilies_ := by
    rw [hfamilies, Std.ExtTreeMap.mem_insert, Std.LawfulEqCmp.compare_eq_iff_eq, eq_comm]
  refine ⟨⟨{ s.database with collections_ := ⟨name⟩ :: s.database.collections_ }, e'⟩,
    ⟨?_, StorageEngine.db_withFamilies.trans h.opened, ?_, ?_⟩, hmem⟩
  · refine h.reachable.step ⟨?_, Stream'.const .ok, _, _, hrun, rfl, Or.inl rfl⟩
    rintro c call' ⟨⟩
  · intro c hc
    rcases List.mem_cons.mp hc with rfl | hc
    · exact (hmem name).mpr (Or.inl rfl)
    · exact (hmem c.name_).mpr (Or.inr (h.cached c hc))
  · intro n hn
    rw [StorageEngine.contents, hfamilies, Std.ExtTreeMap.getElem?_insert]
    split_ifs with hcompare
    · rfl
    · have hne : n ≠ name := fun heq => hcompare (heq ▸ Std.ReflCmp.compare_self)
      exact h.empty n (((hmem n).mp hn).resolve_left hne)

/-- **An index of a collection without documents is created.** -/
theorem Blank.createIndex {s : Session} (h : Blank codec s) {f : Bytes}
    (ha : a ∈ s.engine.columnFamilies_) (hf : indexFamily a f ∉ s.engine.columnFamilies_) :
    ((Collection.mk a).createIndex codec none f).run (.calm s.engine) = (.ret .OK,
      .calm (s.engine.withFamilies (s.engine.columnFamilies_.insert (indexFamily a f) ∅))) := by
  set e' := s.engine.withFamilies (s.engine.columnFamilies_.insert (indexFamily a f) ∅) with he'
  have hexec : s.engine.exec none (.createCollection ((Collection.mk a).getIndexCfName f)) =
      (.ok .OK, e') :=
    StorageEngine.createCollection_none hf h.opened
  have hcursor : e'.cursor a = [] := by
    have hcontents : e'.contents a = s.engine.contents a :=
      StorageEngine.contents_insert (indexFamily_ne a f)
    rw [h.empty a ha, StorageEngine.contents] at hcontents
    rw [StorageEngine.cursor, hcontents]
    rfl
  rw [Collection.createIndex, Engine.createCollection, bind_assoc, Engine.run_call_bind_calm, hexec]
  -- there is nothing for the index to be built from
  have hbuild : ((Collection.mk a).buildIndex codec none f).run (.calm e') = (.ret .OK, .calm e') := by
    rw [Collection.run_buildIndex]
    change (Engine.writes (Collection.buildSteps codec ⟨a⟩ f (e'.cursor a))).run (.calm e') = _
    rw [hcursor]
    rfl
  rw [Engine.run] at hbuild
  change Prog.run World.handle (Prog.tryCatch _ _) (.calm e') = _
  rw [Prog.run_tryCatch, hbuild]

/-- **Names that do not clash keep collections apart, and others do not.** -/
theorem apart_iff : Apart codec a b ↔ ¬Clash a b := by
  constructor
  · intro h hclash
    obtain ⟨f, g, hfg⟩ := clash_iff_exists.mp hclash
    -- both collections are created, and then the index of the one is created
    obtain ⟨s₀, hblank₀, hdefault⟩ := exists_blank codec
    obtain ⟨s₁, hblank₁, hmem₁⟩ := hblank₀.create a
    obtain ⟨s, hblank, hmem⟩ := hblank₁.create b
    have ha : a ∈ s.engine.columnFamilies_ := (hmem a).mpr (Or.inr ((hmem₁ a).mpr (Or.inl rfl)))
    have hb : b ∈ s.engine.columnFamilies_ := (hmem b).mpr (Or.inl rfl)
    have hf : indexFamily a f ∉ s.engine.columnFamilies_ := by
      intro hin
      rcases (hmem _).mp hin with heq | hin
      · exact indexFamily_ne b g (hfg.symm.trans heq)
      · rcases (hmem₁ _).mp hin with heq | hin
        · exact indexFamily_ne a f heq
        · exact ne_default_of_delimited (delimiter_infix_indexFamily a f) (hdefault _ hin)
    have hrun := hblank.createIndex ha hf
    set e' := s.engine.withFamilies (s.engine.columnFamilies_.insert (indexFamily a f) ∅)
    have hstep : Request.Step codec a s (.method (.createIndex f)) ⟨s.database, e'⟩ :=
      ⟨Stream'.const .ok, _, _, Engine.run_bind_of_ret hrun, rfl, Or.inl rfl⟩
    have hentries := (h s hblank.reachable ha hb _ _ (History.Run.nil.snoc hstep)).entries g
    have hnone : s.engine.contents (indexFamily b g) = none :=
      Std.ExtTreeMap.getElem?_eq_none (hfg ▸ hf)
    have hsome : e'.contents (indexFamily b g) = some ∅ := by
      rw [← hfg, StorageEngine.contents, StorageEngine.columnFamilies_withFamilies hblank.opened]
      exact Std.ExtTreeMap.getElem?_insert_self
    rw [hnone, hsome] at hentries
    exact absurd hentries (by simp)
  · intro h s _ _ _ history s' hrun
    refine hrun.invariant (I := fun s' => Untouched b s.engine s'.engine)
      (Untouched.refl b s.engine) ?_
    intro s₁ request s₂ hbefore hstep
    exact hbefore.trans (hstep.untouched h)

/-- A collection `a`, and a collection with the name of its index on `b`. -/
def namedLikeIndex : Session :=
  Session.new.afterAll .standard [.open, .createCollection (Bytes.ofText "a"),
    .createCollection (Bytes.ofText "a__index__b")]

/-- **Deleting an index drops a collection**: the index of `a` on `b` has the family of the
collection `a__index__b`. -/
theorem not_apart_of_index_name : Bytes.ofText "a" ≠ Bytes.ofText "a__index__b" ∧
    ¬Apart .standard (Bytes.ofText "a") (Bytes.ofText "a__index__b") := by
  refine ⟨by decide, fun h => ?_⟩
  have hreachable : namedLikeIndex.Reachable .standard :=
    Session.reachable_new.afterAll (by decide +kernel)
  have hstep : Request.Step .standard (Bytes.ofText "a") namedLikeIndex
      (.method (.deleteIndex (Bytes.ofText "b"))) ⟨namedLikeIndex.database, _⟩ :=
    ⟨Stream'.const .ok, _, _, rfl, rfl, Or.inl rfl⟩
  have huntouched := h namedLikeIndex hreachable (by decide +kernel) (by decide +kernel) _ _
    (History.Run.nil.snoc hstep)
  exact absurd (congrArg Option.isSome huntouched.documents) (by decide +kernel)

end AnuDB
