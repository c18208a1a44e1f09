import AnuDB.Events

/-!
# Collection objects and their identities

`Database` hands out pointers to the collection objects it owns, and whoever holds one holds an
address, not a name. In `AnuDB.Objects` an object has an identity, a new one each time one is
made, so that a pointer to an object that has been destroyed is told from a pointer to the one
that has taken its place. It is the same database otherwise: without the identities the methods
are those of `AnuDB.Database` (`AnuDB.Objects.forget_createCollection` and its like).
-/

namespace AnuDB

open Effect

/-- A collection object. -/
structure Object where
  /-- The collection. -/
  collection : Collection
  /-- Which of the objects that were ever made it is. -/
  identity : ℕ
  deriving DecidableEq

/-- `Database`, with the identities of its objects. -/
structure Objects where
  /-- Whether `open` was called last, or `close`. -/
  isDbOpen_ : Bool
  /-- The collection objects that have been handed out. -/
  collections_ : List Object
  /-- The number of objects that were ever made. -/
  created : ℕ
  /-- The identities are those of objects that were made. -/
  lt_created : ∀ p ∈ collections_, p.identity < created

namespace Objects

/-- A database that has handed out nothing. -/
def new (isDbOpen_ : Bool) : Objects := ⟨isDbOpen_, [], 0, fun _ h => by cases h⟩

variable (o : Objects)

/-- `collections_.find(name)`. -/
def find (name : Bytes) : Option Object := o.collections_.find? fun p => p.collection.name_ = name

/-- The objects without those of a name. -/
def without (name : Bytes) : Objects where
  isDbOpen_ := o.isDbOpen_
  collections_ := o.collections_.filter fun p => p.collection.name_ ≠ name
  created := o.created
  lt_created := fun p hp => o.lt_created p (List.mem_filter.mp hp).1

/-- The object that is made next. -/
def next (name : Bytes) : Object := ⟨⟨name⟩, o.created⟩

/-- The objects, and one more. -/
def make (name : Bytes) : Objects where
  isDbOpen_ := o.isDbOpen_
  collections_ := o.next name :: o.collections_
  created := o.created + 1
  lt_created := by
    rintro p (_ | ⟨_, hp⟩)
    · exact Nat.lt_succ_self _
    · exact Nat.lt_succ_of_lt (o.lt_created p hp)

/-- The object of a name leaves the cache; where it does, it is destroyed. -/
def erase (name : Bytes) : Engine Objects :=
  match o.find name with
  | none => pure o
  | some p => do
    p.collection.destroy
    return o.without name

/-- `Database::createCollection`. -/
def createCollection (name : Bytes) : Engine (Status × Objects) := do
  let status ← Engine.createCollection name
  if status.ok then
    let o ← o.erase name
    return (.OK, o.make name)
  else return (status, o)

/-- `Database::getCollection`. -/
def getCollection (name : Bytes) : Engine (Option Object × Objects) :=
  match o.find name with
  | some p => pure (some p, o)
  | none => do
    if ← Engine.collectionExists name then return (some (o.next name), o.make name)
    else return (none, o)

/-- `Database::dropCollection`. -/
def dropCollection (name : Bytes) : Engine (Status × Objects) := do
  let o ← o.erase name
  let (col, o) ← o.getCollection name
  match col with
  | none => .raise (.undefined .nullCollection)
  | some p => do
    let indexes ← p.collection.getIndex
    p.collection.deleteIndexes indexes
    let status ← Engine.dropCollection name
    return (status, o)

/-! ### Without the identities -/

/-- The database. -/
def forget : Database := ⟨o.isDbOpen_, o.collections_.map Object.collection⟩

variable {o} {name n : Bytes}

theorem find_forget : o.forget.find name = (o.find name).map Object.collection := by
  rw [Database.find, forget, List.find?_map]
  rfl

theorem forget_without : (o.without name).forget = o.forget.erased name := by
  rw [Database.erased, forget, without, forget]
  simp only [List.filter_map]
  rfl

theorem forget_erase : forget <$> o.erase name = o.forget.erase name := by
  rw [erase, Database.erase, find_forget]
  rcases o.find name with _ | p
  · rfl
  · simp only [Option.map_some, map_bind, map_pure, forget_without]
    rfl

theorem forget_createCollection :
    Prod.map id forget <$> o.createCollection name = o.forget.createCollection name := by
  rw [createCollection, Database.createCollection, map_bind]
  congr 1
  funext status
  split_ifs
  · rw [← forget_erase, map_bind, bind_map_left]
    rfl
  · rfl

theorem forget_getCollection : Prod.map (Option.map Object.collection) forget <$>
    o.getCollection name = o.forget.getCollection name := by
  rw [getCollection, Database.getCollection, find_forget]
  rcases o.find name with _ | p
  · simp only [Option.map_none, map_bind]
    congr 1
    funext found
    cases found <;> rfl
  · rfl

theorem forget_dropCollection :
    Prod.map id forget <$> o.dropCollection name = o.forget.dropCollection name := by
  rw [dropCollection, Database.dropCollection, ← forget_erase, map_bind, bind_map_left]
  congr 1
  funext o'
  rw [← forget_getCollection, map_bind, bind_map_left]
  congr 1
  funext found
  obtain ⟨col, o''⟩ := found
  cases col with
  | none => rfl
  | some p =>
    simp only [Prod.map, Option.map_some, map_bind, map_pure]
    rfl

/-! ### Which object is held -/

/-- The objects, with another one for a name. -/
def replaced (o : Objects) (name : Bytes) : Objects := (o.without name).make name

theorem find_without : (o.without name).find n = if n = name then none else o.find n := by
  rw [find, without, List.find?_filter]
  split_ifs with hn
  · rw [List.find?_eq_none]
    intro p _
    simp [hn]
  · rw [find]
    congr 1
    funext p
    by_cases hp : p.collection.name_ = n
    · simp [hp, hn]
    · simp [hp]

theorem find_make : (o.make name).find n = if n = name then some (o.next name) else o.find n := by
  rw [find, make, List.find?_cons, next]
  by_cases hn : n = name
  · simp [hn]
  · rw [if_neg hn, find]
    simp [Ne.symm hn]

theorem find_replaced :
    (o.replaced name).find n = if n = name then some (o.next name) else o.find n := by
  rw [replaced, find_make, find_without]
  split_ifs <;> rfl

theorem without_of_find (h : o.find name = none) : o.without name = o := by
  obtain ⟨isDbOpen_, collections_, created, hlt⟩ := o
  rw [find, List.find?_eq_none] at h
  simp only [without, Objects.mk.injEq, true_and, and_true]
  rw [List.filter_eq_self]
  intro p hp
  simpa using h p hp

/-- An object that is held is not the one that is made next. -/
theorem ne_next {p : Object} (h : o.find n = some p) : p ≠ o.next name := by
  rintro rfl
  exact absurd (o.lt_created _ (List.mem_of_find?_eq_some h)) (Nat.lt_irrefl _)

theorem name_of_find {p : Object} (h : o.find n = some p) : p.collection = ⟨n⟩ := by
  have hname : p.collection.name_ = n := by simpa using List.find?_some h
  rw [← hname]

/-! ### What the methods return -/

theorem returns_erase : (o.erase name).Returns fun o' => o' = o.without name := by
  rw [erase]
  rcases hfind : o.find name with _ | p
  · exact (without_of_find hfind).symm
  · exact (Prog.returns_true _).bind fun _ _ => rfl

theorem returns_createCollection : (o.createCollection name).Returns fun x =>
    x.1.ok = true ∧ x.2 = o.replaced name ∨ x.1.ok = false ∧ x.2 = o := by
  refine (Prog.returns_true _).bind fun status _ => ?_
  split_ifs with hok
  · refine returns_erase.bind fun o' ho => ?_
    subst ho
    exact Or.inl ⟨rfl, rfl⟩
  · exact Or.inr ⟨by simpa using hok, rfl⟩

/-- What `getCollection` may answer: the object that is held, the next one, or none. -/
def Got (o : Objects) (name : Bytes) (x : Option Object × Objects) : Prop :=
  (∃ p, o.find name = some p ∧ x = (some p, o)) ∨
    o.find name = none ∧ (x = (some (o.next name), o.make name) ∨ x = (none, o))

theorem returns_getCollection : (o.getCollection name).Returns (o.Got name) := by
  rw [getCollection]
  rcases hfind : o.find name with _ | p
  · refine (Prog.returns_true _).bind fun found _ => ?_
    cases found with
    | true => exact Or.inr ⟨hfind, Or.inl rfl⟩
    | false => exact Or.inr ⟨hfind, Or.inr rfl⟩
  · exact Or.inl ⟨p, hfind, rfl⟩

/-- The object that is dropped has been replaced, whatever the status. -/
theorem returns_dropCollection :
    (o.dropCollection name).Returns fun x => x.2 = o.replaced name := by
  refine returns_erase.bind fun o' ho => ?_
  subst ho
  have hnone : (o.without name).find name = none := by rw [find_without, if_pos rfl]
  refine returns_getCollection.bind ?_
  rintro ⟨col, o'⟩ (⟨p, hp, -⟩ | ⟨-, h | h⟩)
  · exact absurd (hnone.symm.trans hp) (by simp)
  · obtain ⟨rfl, rfl⟩ := Prod.mk.inj h
    refine (Prog.returns_true _).bind fun _ _ => (Prog.returns_true _).bind fun _ _ => ?_
    exact (Prog.returns_true _).bind fun _ _ => rfl
  · obtain ⟨rfl, rfl⟩ := Prod.mk.inj h
    exact trivial

/-! ### The runs -/

section Runs

variable {e : StorageEngine} {r : Stream' (Option Bytes)}

/-- A method of the database, without the identities, has the run it has with them. -/
theorem run_forget {α β : Type} {p : Engine (α × Objects)} {q : Engine (β × Database)} {f : α → β}
    (h : Prod.map f forget <$> p = q) (w : World) :
    q.run w = ((p.run w).1.map (Prod.map f forget), (p.run w).2) := by
  rw [← h, Engine.run, Prog.run_map]

/-- What returns without the identities returns with them. -/
theorem run_of_forget {α β : Type} {p : Engine (α × Objects)} {q : Engine (β × Database)} {f : α → β}
    (h : Prod.map f forget <$> p = q) {w w' : World} {b : β} {db : Database}
    (hrun : q.run w = (.ret (b, db), w')) :
    ∃ a o', p.run w = (.ret (a, o'), w') ∧ f a = b ∧ o'.forget = db := by
  rw [run_forget h] at hrun
  rcases hp : p.run w with ⟨⟨a, o'⟩ | _ | _, v⟩ <;> rw [hp] at hrun
  · obtain ⟨hret, rfl⟩ := Prod.mk.inj hrun
    obtain ⟨ha, ho⟩ := Prod.mk.inj (Outcome.ret.inj hret)
    exact ⟨a, o', rfl, ha, ho⟩
  · cases (Prod.mk.inj hrun).1
  · cases (Prod.mk.inj hrun).1

/-- What raises without the identities raises with them. -/
theorem run_of_forget_of_raise {α β : Type} {p : Engine (α × Objects)} {q : Engine (β × Database)}
    {f : α → β} (h : Prod.map f forget <$> p = q) {w : World} {exn : Exn}
    (hrun : (q.run w).1 = .raise exn) : (p.run w).1 = .raise exn := by
  rw [run_forget h] at hrun
  rcases hp : p.run w with ⟨x | exn' | _, v⟩ <;> rw [hp] at hrun
  · cases hrun
  · obtain rfl : exn' = exn := Outcome.raise.inj hrun
    rfl
  · cases hrun

/-- A collection that is dropped: what is reported, and what is left. -/
theorem run_dropCollection_of_mem (hname : name ∈ e.columnFamilies_) :
    (o.dropCollection name).run (.refusing e r) =
      (.ret (((o.forget.stripped e r name).dropCollection
          (o.forget.lastRefusal e r name) name).1, o.replaced name),
        .refusing ((o.forget.stripped e r name).dropCollection
          (o.forget.lastRefusal e r name) name).2
          ((o.forget.indexRefusals e r name).drop (o.forget.left e r name).length).tail) := by
  obtain ⟨status, o', hrun, rfl, -⟩ :=
    run_of_forget forget_dropCollection (Database.run_dropCollection_of_mem (r := r) hname)
  obtain rfl : o' = o.replaced name := returns_dropCollection.of_run hrun
  exact hrun

theorem run_dropCollection_of_notMem (hname : name ∉ e.columnFamilies_) :
    ((o.dropCollection name).run (.refusing e r)).1 = .raise (.undefined .nullCollection) :=
  run_of_forget_of_raise forget_dropCollection (Database.run_dropCollection_of_notMem hname)

/-- Where an object is held, asking for it calls nothing. -/
theorem getCollection_of_find {p : Object} (h : o.find name = some p) :
    o.getCollection name = pure (some p, o) := by
  rw [getCollection, h]

/-- Where none is held, one is made if there is a family of the name. -/
theorem run_getCollection_of_none (h : o.find name = none) :
    (o.getCollection name).run (.refusing e r) =
      if name ∈ e.columnFamilies_ then
        (.ret (some (o.next name), o.make name), .refusing e r.tail)
      else (.ret (none, o), .refusing e r.tail) := by
  simp only [getCollection, h]
  rw [Engine.collectionExists, Engine.run_call_bind_refusing]
  simp only [StorageEngine.exec, StorageEngine.collectionExists, Std.ExtTreeMap.contains_iff_mem]
  by_cases hname : name ∈ e.columnFamilies_
  · rw [if_pos hname, if_pos hname]
    rfl
  · rw [if_neg hname, if_neg hname]
    rfl

end Runs

end Objects

end AnuDB
