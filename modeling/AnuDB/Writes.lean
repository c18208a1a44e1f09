import AnuDB.Lib.Batch
import AnuDB.Names
import AnuDB.World

/-!
# Writes, one engine call at a time

A document call changes the database by single puts and removals in families that are
there already, one engine call for each. `AnuDB.Write` is such a change,
`AnuDB.StorageEngine.apply` what it does, and `AnuDB.Engine.writes` the loop all of the
document calls share: work out the next write, which may raise, make it, and go on only
if it was accepted.

Where such a loop stops is read off its steps and the fates of its calls: the writes
that took effect are `AnuDB.StorageEngine.landed`, in every run and however it ends
(`AnuDB.Engine.run_writes_engine`), and the loop reports success exactly when all of
them are (`AnuDB.Engine.run_writes_ok_iff`). Everything that is said about errors and
crashes in the middle of a document call goes through these two.
-/

namespace AnuDB

open Effect

/-- A change of one key in one family: a put, or without a value a removal. -/
structure Write where
  /-- The family. -/
  family : Bytes
  /-- The key. -/
  key : Bytes
  /-- The value put, if it is a put. -/
  value : Option Bytes
  deriving DecidableEq

/-- What a write makes of its family. -/
def Write.change (w : Write) (cf : ColumnFamily) : ColumnFamily :=
  match w.value with
  | some value => cf.insert w.key value
  | none => cf.erase w.key

/-- A list of steps that are all writes is a list of writes. -/
theorem exists_eq_map_ok_iff {steps : List (Except Exn Write)} :
    (∃ ws : List Write, steps = ws.map .ok) ↔ ∀ step ∈ steps, ∃ x, step = .ok x := by
  simp only [eq_comm (a := steps), eq_comm (b := Except.ok _)]
  exact Set.ext_iff.mp (Set.range_list_map Except.ok) steps

/-- The update of the contents a write is. -/
def Write.update (w : Write) : Batch.Update Bytes (Option ColumnFamily) :=
  ⟨w.family, Option.map w.change⟩

theorem Write.getElem?_change (w : Write) (cf : ColumnFamily) (key : Bytes) :
    (w.change cf)[key]? = if key = w.key then w.value else cf[key]? := by
  rw [Write.change]
  cases w.value <;> simp [Std.ExtTreeMap.getElem?_insert, Std.ExtTreeMap.getElem?_erase,
    eq_comm (a := key)]

namespace StorageEngine

variable {e : StorageEngine} {w : Write} {n key : Bytes} {m : ColumnFamilies}

/-! ### The families of an engine -/

/-- The contents of every family, by name. -/
def contents (e : StorageEngine) : Bytes → Option ColumnFamily := fun n => e.columnFamilies_[n]?

/-- The value a family holds under a key. -/
def lookup (e : StorageEngine) (family key : Bytes) : Option Bytes :=
  (e.contents family).bind fun cf => cf[key]?

theorem lookup_of_empty {key : Bytes} (h : e.contents n = some ∅) : e.lookup n key = none := by
  rw [lookup, h]
  exact Std.ExtTreeMap.getElem?_empty

theorem mem_iff_contents : n ∈ e.columnFamilies_ ↔ (e.contents n).isSome :=
  Std.ExtTreeMap.mem_iff_isSome_getElem?

/-- What is in a family is told by whether it is there and by what is under its keys. -/
theorem contents_ext {e' : StorageEngine} (hmem : n ∈ e.columnFamilies_ ↔ n ∈ e'.columnFamilies_)
    (hlookup : ∀ key, e.lookup n key = e'.lookup n key) : e.contents n = e'.contents n := by
  rw [mem_iff_contents, mem_iff_contents] at hmem
  simp only [lookup] at hlookup
  rcases he : e.contents n with _ | cf <;> rcases he' : e'.contents n with _ | cf'
  · rfl
  · simp [he, he'] at hmem
  · simp [he, he'] at hmem
  · congr 1
    ext1 key
    simpa [he, he'] using hlookup key

theorem opened_of_mem (h : n ∈ e.columnFamilies_) : e.db_ = .opened := by
  by_contra hne
  rw [e.families_eq_empty hne] at h
  exact Std.ExtTreeMap.not_mem_empty h

theorem columnFamilies_withFamilies (h : e.db_ = .opened) :
    (e.withFamilies m).columnFamilies_ = m := by
  rw [withFamilies, dif_pos h]

@[simp] theorem db_withFamilies : (e.withFamilies m).db_ = e.db_ := by
  rw [withFamilies]
  split <;> rfl

/-- The indexes listed for a collection depend on which families there are. -/
theorem getIndexNames_congr {e e' : StorageEngine}
    (h : ∀ n, n ∈ e.columnFamilies_ ↔ n ∈ e'.columnFamilies_) (c : Bytes) :
    e.getIndexNames c = e'.getIndexNames c := by
  have hperm : e.columnFamilies_.keys.Perm e'.columnFamilies_.keys := by
    rw [List.perm_ext_iff_of_nodup Std.ExtTreeMap.nodup_keys Std.ExtTreeMap.nodup_keys]
    intro n
    rw [Std.ExtTreeMap.mem_keys, Std.ExtTreeMap.mem_keys, h n]
  have hkeys : e.columnFamilies_.keys = e'.columnFamilies_.keys := by
    refine hperm.eq_of_pairwise ?_ Std.ExtTreeMap.ordered_keys Std.ExtTreeMap.ordered_keys
    intro a b _ _ hab hba
    exact absurd hba (Std.OrientedCmp.not_lt_of_lt hab)
  rw [getIndexNames, getIndexNames, hkeys]

/-! ### A write that takes effect -/

/-- **A write that takes effect**; in a family that is not there it does nothing. -/
def apply (e : StorageEngine) (w : Write) : StorageEngine :=
  match e.columnFamilies_[w.family]? with
  | none => e
  | some cf => e.withFamilies (e.columnFamilies_.insert w.family (w.change cf))

/-- Writes that take effect, one after the other. -/
def applyAll (e : StorageEngine) (ws : List Write) : StorageEngine := ws.foldl apply e

@[simp] theorem applyAll_nil : e.applyAll [] = e := rfl

@[simp] theorem applyAll_cons {ws : List Write} :
    e.applyAll (w :: ws) = (e.apply w).applyAll ws := rfl

@[simp] theorem db_apply : (e.apply w).db_ = e.db_ := by
  rw [apply]
  split
  · rfl
  · exact db_withFamilies

theorem apply_of_none (h : e.contents w.family = none) : e.apply w = e := by
  rw [apply, show e.columnFamilies_[w.family]? = none from h]

theorem columnFamilies_apply_of_some {cf : ColumnFamily} (h : e.contents w.family = some cf) :
    (e.apply w).columnFamilies_ = e.columnFamilies_.insert w.family (w.change cf) := by
  have hdb : e.db_ = .opened := opened_of_mem (mem_iff_contents.mpr (by rw [h]; rfl))
  rw [apply, show e.columnFamilies_[w.family]? = some cf from h]
  exact columnFamilies_withFamilies hdb

theorem contents_apply : (e.apply w).contents =
    Function.update e.contents w.family ((e.contents w.family).map w.change) := by
  funext n
  rcases hw : e.contents w.family with _ | cf
  · rw [apply_of_none hw, Option.map_none, ← hw, Function.update_eq_self]
  · rw [contents, columnFamilies_apply_of_some hw, Std.ExtTreeMap.getElem?_insert, Option.map_some]
    by_cases hn : n = w.family
    · subst hn
      simp
    · rw [Function.update_of_ne hn, if_neg fun h => hn (Std.LawfulEqCmp.eq_of_compare h).symm]
      rfl

/-- **A list of writes is a batch of updates** of the contents. -/
theorem contents_applyAll (ws : List Write) :
    (e.applyAll ws).contents = Batch.apply e.contents (ws.map Write.update) := by
  induction ws generalizing e with
  | nil => rfl
  | cons w ws ih => rw [applyAll_cons, ih, contents_apply]; rfl

theorem mem_applyAll (ws : List Write) :
    n ∈ (e.applyAll ws).columnFamilies_ ↔ n ∈ e.columnFamilies_ := by
  induction ws generalizing e with
  | nil => rfl
  | cons w ws ih =>
    rw [applyAll_cons, ih, mem_iff_contents, mem_iff_contents, contents_apply]
    by_cases hn : n = w.family
    · subst hn
      rw [Function.update_self, Option.isSome_map]
    · rw [Function.update_of_ne hn]

/-- Writes leave the list of indexes alone. -/
theorem getIndexNames_applyAll (ws : List Write) (c : Bytes) :
    (e.applyAll ws).getIndexNames c = e.getIndexNames c :=
  getIndexNames_congr (fun _ => mem_applyAll ws) c

/-- **What a write leaves under a key**: its own value under its own key, if its family
is there, and everything else as it was. -/
theorem lookup_apply : (e.apply w).lookup n key =
    if n = w.family ∧ key = w.key ∧ n ∈ e.columnFamilies_ then w.value else e.lookup n key := by
  simp only [lookup, contents_apply, mem_iff_contents]
  by_cases hn : n = w.family
  · subst hn
    rw [Function.update_self]
    cases e.contents w.family with
    | none => simp
    | some cf => simp [Write.getElem?_change]
  · rw [Function.update_of_ne hn]
    simp [hn]

/-- What no write is of keeps its value. -/
theorem lookup_applyAll_of_forall {ws : List Write}
    (h : ∀ x ∈ ws, x.family = n → x.key ≠ key) : (e.applyAll ws).lookup n key = e.lookup n key := by
  induction ws generalizing e with
  | nil => rfl
  | cons x ws ih =>
    rw [applyAll_cons, ih fun y hy => h y (List.mem_cons_of_mem x hy), lookup_apply, if_neg]
    rintro ⟨rfl, rfl, -⟩
    exact h x List.mem_cons_self rfl rfl

/-- **What is under a key after writes of it** is what one of them wrote, the last. -/
theorem exists_lookup_applyAll {ws : List Write} {x : Write} (hx : x ∈ ws)
    (hmem : x.family ∈ e.columnFamilies_) : ∃ y ∈ ws, y.family = x.family ∧ y.key = x.key ∧
      (e.applyAll ws).lookup x.family x.key = y.value := by
  induction ws generalizing e x with
  | nil => exact absurd hx List.not_mem_nil
  | cons z ws ih =>
    rw [applyAll_cons]
    have hmem' : x.family ∈ (e.apply z).columnFamilies_ := (mem_applyAll [z]).mpr hmem
    by_cases hlater : ∃ y ∈ ws, y.family = x.family ∧ y.key = x.key
    · obtain ⟨y, hy, hfamily, hkey⟩ := hlater
      obtain ⟨y', hy', hfamily', hkey', hlookup⟩ := ih hy (hfamily ▸ hmem')
      rw [hfamily, hkey] at hlookup
      exact ⟨y', List.mem_cons_of_mem z hy', hfamily'.trans hfamily, hkey'.trans hkey, hlookup⟩
    · have hlast : x = z := (List.mem_cons.mp hx).resolve_right fun hx' => hlater ⟨x, hx', rfl, rfl⟩
      refine ⟨x, hx, rfl, rfl, ?_⟩
      rw [lookup_applyAll_of_forall fun y hy hfamily hkey => hlater ⟨y, hy, hfamily, hkey⟩,
        ← hlast, lookup_apply, if_pos ⟨rfl, rfl, hmem⟩]

/-! ### A write that is tried -/

/-- A write that is tried, as the put or the removal it is. -/
def tryWrite (e : StorageEngine) (fault : Option Bytes) (w : Write) : Status × StorageEngine :=
  match w.value with
  | some value => e.put fault w.family w.key value
  | none => e.remove fault w.family w.key

/-- A write is accepted exactly when its family is there and RocksDB does not refuse. -/
theorem tryWrite_ok_iff {fault : Option Bytes} :
    (e.tryWrite fault w).1.ok = true ↔ fault = none ∧ w.family ∈ e.columnFamilies_ := by
  rw [mem_iff_contents, contents]
  cases hv : w.value <;> rcases hw : e.columnFamilies_[w.family]? with _ | cf <;>
    cases fault <;> simp [tryWrite, hv, put, remove, hw]

/-- A write that is tried takes effect or does nothing. -/
theorem tryWrite_engine {fault : Option Bytes} :
    (e.tryWrite fault w).2 = if fault = none then e.apply w else e := by
  cases hv : w.value <;> rcases hw : e.columnFamilies_[w.family]? with _ | cf <;>
    cases fault <;> simp [tryWrite, hv, put, remove, hw, apply, Write.change]

/-- A write that is tried adds and removes no family. -/
theorem mem_tryWrite {fault : Option Bytes} :
    n ∈ (e.tryWrite fault w).2.columnFamilies_ ↔ n ∈ e.columnFamilies_ := by
  rw [tryWrite_engine]
  split_ifs
  · exact mem_applyAll [w]
  · rfl

/-- What a write that is tried leaves under a key. -/
theorem lookup_tryWrite {fault : Option Bytes} : (e.tryWrite fault w).2.lookup n key =
    if fault = none ∧ n = w.family ∧ key = w.key ∧ n ∈ e.columnFamilies_ then w.value
    else e.lookup n key := by
  rw [tryWrite_engine]
  by_cases hfault : fault = none
  · rw [if_pos hfault, lookup_apply]
    simp only [hfault, true_and]
  · rw [if_neg hfault, if_neg fun h => hfault h.1]

/-- What is said to a write depends on whether its family is there. -/
theorem tryWrite_congr {e' : StorageEngine} {fault : Option Bytes}
    (h : w.family ∈ e.columnFamilies_ ↔ w.family ∈ e'.columnFamilies_) :
    (e.tryWrite fault w).1 = (e'.tryWrite fault w).1 := by
  rw [mem_iff_contents, mem_iff_contents, contents, contents] at h
  cases hv : w.value <;> rcases hw : e.columnFamilies_[w.family]? with _ | cf <;>
    rcases hw' : e'.columnFamilies_[w.family]? with _ | cf' <;> cases fault <;>
      simp_all [tryWrite, put, remove]

/-- **The writes that take effect** when a list of steps is carried out one by one: those
before the first that raises, is refused, has no family, or finds the process stopped. -/
def landed (e : StorageEngine) : Stream' Fate → List (Except Exn Write) → List Write
  | _, [] => []
  | _, .error _ :: _ => []
  | fates, .ok w :: steps =>
    if fates.head = .ok ∧ w.family ∈ e.columnFamilies_ then w :: e.landed fates.tail steps else []

/-- What lands depends on which families there are, and writes do not change that. -/
theorem landed_apply (x : Write) (fates : Stream' Fate) (steps : List (Except Exn Write)) :
    (e.apply x).landed fates steps = e.landed fates steps := by
  have hmem : ∀ n, n ∈ (e.apply x).columnFamilies_ ↔ n ∈ e.columnFamilies_ :=
    fun n => mem_applyAll [x]
  induction steps generalizing fates with
  | nil => rfl
  | cons step steps ih =>
    rcases step with _ | y
    · rfl
    · simp only [landed, hmem, ih]

/-- The writes that land are the first steps. -/
theorem landed_beginning (fates : Stream' Fate) (steps : List (Except Exn Write)) :
    (e.landed fates steps).map .ok <+: steps := by
  induction steps generalizing fates with
  | nil => exact List.prefix_rfl
  | cons step steps ih =>
    rcases step with _ | x
    · exact List.nil_prefix
    · rw [landed]
      split_ifs
      · exact List.prefix_cons_inj _ |>.mpr (ih _)
      · exact List.nil_prefix

/-- Where every call goes through, every write lands that has its family. -/
theorem landed_const_ok {ws : List Write} (h : ∀ x ∈ ws, x.family ∈ e.columnFamilies_) :
    e.landed (Stream'.const .ok) (ws.map .ok) = ws := by
  induction ws with
  | nil => rfl
  | cons x ws ih =>
    have hx : x.family ∈ e.columnFamilies_ := h x List.mem_cons_self
    rw [List.map_cons, landed, if_pos ⟨rfl, hx⟩]
    exact congrArg _ (ih fun y hy => h y (List.mem_cons_of_mem x hy))

/-- **Every step lands** exactly if all are writes, their families are there, and the calls go
through. -/
theorem landed_eq_iff {fates : Stream' Fate} {steps : List (Except Exn Write)} :
    (e.landed fates steps).map .ok = steps ↔ ∃ ws : List Write, steps = ws.map .ok ∧
      (∀ x ∈ ws, x.family ∈ e.columnFamilies_) ∧ ∀ i < ws.length, fates.get i = .ok := by
  induction steps generalizing fates with
  | nil =>
    refine iff_of_true rfl ⟨[], rfl, fun x hx => absurd hx List.not_mem_nil, fun i hi => ?_⟩
    exact absurd hi (Nat.not_lt_zero i)
  | cons step steps ih =>
    rcases step with exn | x
    · refine iff_of_false (fun h => absurd h (by simp [landed])) ?_
      rintro ⟨ws, hws, -⟩
      obtain ⟨x, -, hx⟩ := List.mem_map.mp (hws ▸ List.mem_cons_self)
      exact absurd hx (by simp)
    · rw [landed]
      constructor
      · intro h
        split_ifs at h with hx
        · obtain ⟨ws, rfl, hmem, hfates⟩ := ih.mp (List.cons.inj h).2
          refine ⟨x :: ws, rfl, List.forall_mem_cons.mpr ⟨hx.2, hmem⟩, fun i hi => ?_⟩
          cases i with
          | zero => exact hx.1
          | succ i => exact hfates i (Nat.lt_of_succ_lt_succ hi)
        · cases h
      · rintro ⟨ws, hws, hmem, hfates⟩
        cases ws with
        | nil => cases hws
        | cons y ws =>
          obtain ⟨hxy, hsteps⟩ := List.cons.inj hws
          obtain rfl := Except.ok.inj hxy
          obtain ⟨hy, hmem⟩ := List.forall_mem_cons.mp hmem
          rw [if_pos ⟨hfates 0 (Nat.zero_lt_succ _), hy⟩, List.map_cons]
          exact congrArg _ (ih.mpr ⟨ws, hsteps, hmem, fun i hi => hfates (i + 1) (Nat.succ_lt_succ hi)⟩)

theorem mem_of_mem_landed {x : Write} {fates : Stream' Fate} {steps : List (Except Exn Write)}
    (h : x ∈ e.landed fates steps) : x.family ∈ e.columnFamilies_ := by
  induction steps generalizing fates with
  | nil => exact absurd h List.not_mem_nil
  | cons step steps ih =>
    rcases step with _ | y
    · exact absurd h List.not_mem_nil
    · rw [landed] at h
      split_ifs at h with hy
      · rcases List.mem_cons.mp h with rfl | hmem
        · exact hy.2
        · exact ih hmem
      · exact absurd h List.not_mem_nil

end StorageEngine

namespace Engine

/-- A write, called. -/
def write (w : Write) : Engine Status :=
  match w.value with
  | some value => put w.family w.key value
  | none => remove w.family w.key

/-- **The loop of a document call**: each step is worked out, called, and returned from
if it is not accepted. -/
def writes : List (Except Exn Write) → Engine Status
  | [] => pure .OK
  | step :: steps => do
    let w ← Prog.ofExcept step
    let status ← write w
    if status.ok then writes steps else pure status

variable {α : Type} {w : World}

theorem run_write_bind (x : Write) (k : Status → Engine α) :
    (write x >>= k).run w = match w.fates.head.fault? with
      | none => (.stopped, w)
      | some fault =>
        (k (w.engine.tryWrite fault x).1).run (w.next (w.engine.tryWrite fault x).2) := by
  cases hv : x.value <;> cases hf : w.fates.head.fault? <;>
    simp [write, hv, put, remove, run, Prog.run_perform_bind, World.handle, hf,
      StorageEngine.tryWrite, StorageEngine.exec]

theorem run_writes_cons (x : Write) (steps : List (Except Exn Write)) :
    (writes (.ok x :: steps)).run w = match w.fates.head.fault? with
      | none => (.stopped, w)
      | some fault =>
        let (status, e) := w.engine.tryWrite fault x
        if status.ok then (writes steps).run (w.next e) else (.ret status, w.next e) := by
  change (write x >>= fun status => if status.ok then writes steps else pure status).run w = _
  rw [run_write_bind]
  cases w.fates.head.fault? with
  | none => rfl
  | some fault => by_cases hok : (w.engine.tryWrite fault x).1.ok <;> simp [hok]

/-- The loop, one step on: the step lands and the loop goes on, or the run is over. -/
theorem run_writes_cases (x : Write) (steps : List (Except Exn Write)) :
    (w.fates.head = .ok ∧ x.family ∈ w.engine.columnFamilies_ ∧
      (writes (.ok x :: steps)).run w = (writes steps).run (w.next (w.engine.apply x))) ∨
    (¬(w.fates.head = .ok ∧ x.family ∈ w.engine.columnFamilies_) ∧
      ((writes (.ok x :: steps)).run w).2.engine = w.engine ∧
      ∀ status, ((writes (.ok x :: steps)).run w).1 = .ret status → status.ok = false) := by
  rw [run_writes_cons]
  rcases hf : w.fates.head with _ | text | _
  · by_cases hx : x.family ∈ w.engine.columnFamilies_
    · have hok := StorageEngine.tryWrite_ok_iff.mpr ⟨rfl, hx⟩
      refine Or.inl ⟨rfl, hx, ?_⟩
      simp [Fate.fault?, hok, StorageEngine.tryWrite_engine]
    · have hok : (w.engine.tryWrite none x).1.ok = false :=
        Bool.eq_false_iff.mpr fun h => hx (StorageEngine.tryWrite_ok_iff.mp h).2
      have hnone : w.engine.contents x.family = none := by
        rwa [StorageEngine.mem_iff_contents, Option.not_isSome_iff_eq_none] at hx
      refine Or.inr ⟨fun h => hx h.2, ?_, ?_⟩
      · simp [Fate.fault?, hok, StorageEngine.tryWrite_engine, StorageEngine.apply_of_none hnone]
      · simp [Fate.fault?, hok]
  · have hok : (w.engine.tryWrite (some text) x).1.ok = false :=
      Bool.eq_false_iff.mpr fun h => absurd (StorageEngine.tryWrite_ok_iff.mp h).1 (by simp)
    refine Or.inr ⟨fun h => absurd h.1 (by simp), ?_, ?_⟩
    · simp [Fate.fault?, hok, StorageEngine.tryWrite_engine]
    · simp [Fate.fault?, hok]
  · exact Or.inr ⟨fun h => absurd h.1 (by simp), rfl, fun _ h => by simp [Fate.fault?] at h⟩

/-- **What a run of the loop leaves**: the writes that landed have taken effect, and
nothing else has happened, however the run ended. -/
theorem run_writes_engine (steps : List (Except Exn Write)) :
    ((writes steps).run w).2.engine = w.engine.applyAll (w.engine.landed w.fates steps) := by
  induction steps generalizing w with
  | nil => rfl
  | cons step steps ih =>
    rcases step with e | x
    · rfl
    · rw [StorageEngine.landed]
      rcases run_writes_cases (w := w) x steps with ⟨hf, hx, hrun⟩ | ⟨hnot, heng, -⟩
      · rw [hrun, ih, if_pos ⟨hf, hx⟩, StorageEngine.applyAll_cons]
        rw [World.next_engine, World.next_fates, StorageEngine.landed_apply]
      · rw [if_neg hnot, heng, StorageEngine.applyAll_nil]

/-- **The loop reports success exactly when every step of it landed.** -/
theorem run_writes_ok_iff (steps : List (Except Exn Write)) :
    (∃ status, ((writes steps).run w).1 = .ret status ∧ status.ok = true) ↔
      (w.engine.landed w.fates steps).map .ok = steps := by
  induction steps generalizing w with
  | nil => exact iff_of_true ⟨.OK, rfl, rfl⟩ rfl
  | cons step steps ih =>
    rcases step with e | x
    · refine iff_of_false ?_ (by simp [StorageEngine.landed])
      rintro ⟨status, hrun, -⟩
      exact absurd hrun (by simp [writes, run, Prog.run_ofExcept_bind])
    · rw [StorageEngine.landed]
      rcases run_writes_cases (w := w) x steps with ⟨hf, hx, hrun⟩ | ⟨hnot, -, hbad⟩
      · rw [hrun, ih, if_pos ⟨hf, hx⟩, World.next_engine, World.next_fates,
          StorageEngine.landed_apply, List.map_cons, List.cons.injEq]
        exact (and_iff_right rfl).symm
      · rw [if_neg hnot]
        refine iff_of_false ?_ (by simp)
        rintro ⟨status, hrun, hok⟩
        rw [hbad status hrun] at hok
        exact absurd hok (by simp)

end Engine

end AnuDB
