import AnuDB.Lib.Bytes

/-!
# UTF-8

Which sequences of bytes are UTF-8 is decided by a machine that reads one byte after the
other: between characters it looks at the lead byte, and after that it knows how many
continuation bytes are owed, and for four lead bytes that the next one has a narrower range.
A sequence is valid if the machine ends between characters (`Utf8.Valid`).

A valid beginning is invisible: what follows is judged on its own
(`Utf8.valid_append_iff`). In front of an ASCII byte there can be no character that is not
complete, so a text put between quotes is valid exactly if it is valid itself
(`Utf8.valid_append_cons_iff`).
-/

namespace Utf8

/-- Where the machine stands. -/
inductive State where
  /-- Between characters. -/
  | accept : State
  /-- One continuation byte is owed. -/
  | one : State
  /-- Two are owed. -/
  | two : State
  /-- Three are owed. -/
  | three : State
  /-- Two are owed, and the first is not to make an overlong form. -/
  | twoHigh : State
  /-- Two are owed, and the first is not to make a surrogate. -/
  | twoLow : State
  /-- Three are owed, and the first is not to make an overlong form. -/
  | threeHigh : State
  /-- Three are owed, and the first is not to go beyond the last code point. -/
  | threeLow : State
  deriving DecidableEq

/-- The state after a byte in a range. -/
def within (low high : ℕ) (b : UInt8) (next : State) : Option State :=
  if low ≤ b.toNat ∧ b.toNat ≤ high then some next else none

/-- The state after the lead byte of a character. -/
def lead (b : UInt8) : Option State :=
  if b.toNat < 0x80 then some .accept
  else if b.toNat < 0xC2 then none
  else if b.toNat ≤ 0xDF then some .one
  else if b.toNat = 0xE0 then some .twoHigh
  else if b.toNat = 0xED then some .twoLow
  else if b.toNat ≤ 0xEF then some .two
  else if b.toNat = 0xF0 then some .threeHigh
  else if b.toNat ≤ 0xF3 then some .three
  else if b.toNat = 0xF4 then some .threeLow
  else none

/-- **One byte.** -/
def step : State → UInt8 → Option State
  | .accept, b => lead b
  | .one, b => within 0x80 0xBF b .accept
  | .two, b => within 0x80 0xBF b .one
  | .three, b => within 0x80 0xBF b .two
  | .twoHigh, b => within 0xA0 0xBF b .one
  | .twoLow, b => within 0x80 0x9F b .one
  | .threeHigh, b => within 0x90 0xBF b .two
  | .threeLow, b => within 0x80 0x8F b .two

/-- The state after a sequence of bytes. -/
def run : State → Bytes → Option State
  | state, [] => some state
  | state, b :: s => (step state b).bind fun state => run state s

/-- **The bytes are UTF-8.** -/
def Valid (s : Bytes) : Prop := run .accept s = some .accept

instance (s : Bytes) : Decidable (Valid s) := inferInstanceAs (Decidable (_ = _))

theorem run_append (state : State) (s t : Bytes) :
    run state (s ++ t) = (run state s).bind fun state => run state t := by
  induction s generalizing state with
  | nil => rfl
  | cons b s ih =>
    rw [List.cons_append, run, run, Option.bind_assoc]
    exact congrArg _ (funext ih)

/-- No character has the byte 0xFF. -/
theorem notMem_of_run {s : Bytes} {state state' : State} (h : run state s = some state') :
    255 ∉ s := by
  induction s generalizing state with
  | nil => exact List.not_mem_nil
  | cons b s ih =>
    obtain ⟨next, hstep, hrun⟩ := Option.bind_eq_some_iff.mp h
    rw [List.mem_cons, not_or]
    refine ⟨?_, ih hrun⟩
    rintro rfl
    cases state <;> cases hstep

theorem valid_nil : Valid [] := rfl

/-- **A valid beginning is invisible.** -/
theorem valid_append_iff {s t : Bytes} (hs : Valid s) : Valid (s ++ t) ↔ Valid t := by
  rw [Valid, run_append, hs]
  rfl

theorem Valid.append {s t : Bytes} (hs : Valid s) (ht : Valid t) : Valid (s ++ t) :=
  (valid_append_iff hs).mpr ht

/-- An ASCII byte is a character between characters, and no continuation. -/
theorem step_ascii {b : UInt8} (hb : b.toNat < 0x80) {state state' : State}
    (h : step state b = some state') : state = .accept ∧ state' = .accept := by
  cases state with
  | accept =>
    rw [step, lead, if_pos hb] at h
    exact ⟨rfl, (Option.some.inj h).symm⟩
  | _ =>
    -- every continuation byte is from 0x80 on
    simp only [step, within] at h
    split_ifs at h with hrange
    omega

/-- **In front of an ASCII byte** every character is complete. -/
theorem valid_append_cons_iff {s t : Bytes} {b : UInt8} (hb : b.toNat < 0x80) :
    Valid (s ++ b :: t) ↔ Valid s ∧ Valid t := by
  constructor
  · intro h
    rw [Valid, run_append] at h
    obtain ⟨state, hs, hrest⟩ := Option.bind_eq_some_iff.mp h
    obtain ⟨state', hstep, ht⟩ := Option.bind_eq_some_iff.mp hrest
    obtain ⟨rfl, rfl⟩ := step_ascii hb hstep
    exact ⟨hs, ht⟩
  · rintro ⟨hs, ht⟩
    refine (valid_append_iff hs).mpr ?_
    rw [Valid, run, step, lead, if_pos hb]
    exact ht

/-- ASCII is UTF-8. -/
theorem valid_of_ascii {s : Bytes} (h : ∀ b ∈ s, b.toNat < 0x80) : Valid s := by
  induction s with
  | nil => exact valid_nil
  | cons b s ih =>
    have htail := ih fun c hc => h c (List.mem_cons_of_mem b hc)
    exact (valid_append_cons_iff (s := []) (h b List.mem_cons_self)).mpr ⟨valid_nil, htail⟩

end Utf8
