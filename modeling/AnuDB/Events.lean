import AnuDB.DropCollection

/-!
# Calls, and what RocksDB refuses while they are made

A step of a session (`AnuDB.Session.Step`) says that there are fates under which its call ends
as it does. Where it matters which ones – the condition under which something holds may be that
a certain drop is refused – the label of a step is an `AnuDB.Event`: the call together with the
refusals it meets. Nothing is lost by that (`AnuDB.Session.step_iff_exists_does`): a run that is
not stopped does not see the fates that stop it.
-/

namespace AnuDB

open Effect

/-! ### Refusals of a world -/

/-- What a world refuses, where it does not stop. -/
def World.refusals (w : World) : Stream' (Option Bytes) := w.fates.map fun fate => fate.fault?.join

/-- **A run that is not stopped** is one in which RocksDB refuses what it refuses. -/
theorem Engine.run_refusing_of_not_stopped {α : Type} {p : Engine α} {w w' : World}
    {outcome : Outcome Exn α} (h : p.run w = (outcome, w')) (hstopped : outcome ≠ .stopped) :
    p.run (.refusing w.engine w.refusals) = (outcome, .refusing w'.engine w'.refusals) := by
  induction p generalizing w with
  | ret a =>
    obtain ⟨rfl, rfl⟩ := Prod.mk.inj h
    rfl
  | raise exn =>
    obtain ⟨rfl, rfl⟩ := Prod.mk.inj h
    rfl
  | call x k ih =>
    change ((Prog.perform x >>= k : Engine α).run w) = _ at h
    change ((Prog.perform x >>= k : Engine α).run (.refusing w.engine w.refusals)) = _
    rw [Engine.run_call_bind] at h
    rw [Engine.run_call_bind_refusing]
    rcases hfault : w.fates.head.fault? with _ | fault
    · rw [hfault] at h
      exact absurd (Prod.mk.inj h).1.symm hstopped
    · have hhead : w.refusals.head = fault := by
        change w.fates.head.fault?.join = fault
        rw [hfault]
        rfl
      rw [hfault] at h
      rw [hhead]
      exact ih _ h

/-- The second part of what a program returns. -/
theorem Engine.run_snd {α β : Type} {p : Engine (β × α)} {w w' : World}
    {outcome : Outcome Exn (β × α)} (h : p.run w = (outcome, w')) :
    (Prod.snd <$> p : Engine α).run w = (outcome.map Prod.snd, w') := by
  rw [Engine.run] at h
  rw [Engine.run, Prog.run_map, h]

/-! ### Events -/

/-- **A call, and what RocksDB refuses** while it is made. -/
structure Event where
  /-- The call. -/
  call : SessionCall
  /-- What RocksDB refuses. -/
  refusals : Stream' (Option Bytes)

namespace Session

variable {codec : Codec} {s s' : Session}

/-- A step of a session, under refusals that are given. -/
def Does (codec : Codec) (s : Session) (x : Event) (s' : Session) : Prop :=
  (∀ c call', x.call = .collection c call' → c ∈ s.database.collections_) ∧
  ∃ outcome w', (x.call.perform codec s.database).run (.refusing s.engine x.refusals) =
      (outcome, w') ∧ w'.engine = s'.engine ∧
    (outcome = .ret s'.database ∨
      (∃ what, outcome = .raise (.exception what)) ∧ s'.database = s.database)

/-- Where a call returns, the step is told by what it returns. -/
theorem Does.eq_of_ret {x : Event} {db' : Database} {w' : World} (h : s.Does codec x s')
    (hrun : (x.call.perform codec s.database).run (.refusing s.engine x.refusals) =
      (.ret db', w')) : s' = ⟨db', w'.engine⟩ := by
  obtain ⟨-, outcome, w'', hrun', hengine, houtcome⟩ := h
  rw [hrun] at hrun'
  obtain ⟨rfl, rfl⟩ := Prod.mk.inj hrun'
  rcases houtcome with hret | ⟨⟨what, hraise⟩, -⟩
  · rw [Outcome.ret.inj hret, hengine]
  · exact absurd hraise (by simp)

/-- A call into undefined behaviour is no step. -/
theorem Does.ne_undefined {x : Event} {u : Undefined} (h : s.Does codec x s') :
    ((x.call.perform codec s.database).run (.refusing s.engine x.refusals)).1 ≠
      .raise (.undefined u) := by
  obtain ⟨-, outcome, w'', hrun, -, houtcome⟩ := h
  rw [hrun]
  rintro rfl
  rcases houtcome with hret | ⟨⟨what, hraise⟩, -⟩
  · exact absurd hret (by simp)
  · exact absurd hraise (by simp)

/-! ### Runs in which RocksDB refuses nothing -/

/-- Calls of which RocksDB refuses nothing, as events. -/
def calmly (calls : List SessionCall) : List Event :=
  calls.map fun call => ⟨call, Stream'.const none⟩

theorem does_after {call : SessionCall} (h : s.returns codec call = true) :
    s.Does codec ⟨call, Stream'.const none⟩ (s.after codec call) := by
  obtain ⟨hc, hret⟩ := Bool.and_eq_true_iff.mp h
  rcases hrun : (call.perform codec s.database).run (.calm s.engine) with ⟨db | exn | _, w⟩
  · refine ⟨?_, _, w, hrun, ?_, Or.inl ?_⟩
    · rintro c call' rfl
      exact of_decide_eq_true hc
    · rw [Session.after, hrun]
    · rw [Session.after, hrun]
  · simp [hrun] at hret
  · simp [hrun] at hret

/-- Calls that all return make a run, of steps of a kind they all are of. -/
theorem run_calmly (codec : Codec) {s : Session} {Step : Session → Event → Session → Prop}
    {calls : List SessionCall}
    (hcalls : ∀ call ∈ calls, ∀ {s s'}, s.Does codec ⟨call, Stream'.const none⟩ s' →
      Step s ⟨call, Stream'.const none⟩ s')
    (h : s.returnsAll codec calls = true) :
    History.Run Step s (calmly calls) (s.afterAll codec calls) := by
  induction calls generalizing s with
  | nil => exact .nil
  | cons call calls ih =>
    obtain ⟨hcall, hrest⟩ := Bool.and_eq_true_iff.mp h
    have hfirst : History.Run Step s [⟨call, Stream'.const none⟩] (s.after codec call) :=
      History.Run.nil.snoc (hcalls call List.mem_cons_self (does_after hcall))
    exact hfirst.append (ih (fun call' h' => hcalls call' (List.mem_cons_of_mem call h')) hrest)

end Session

end AnuDB
