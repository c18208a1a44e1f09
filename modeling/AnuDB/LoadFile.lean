import AnuDB.Lib.Loop
import AnuDB.Lib.Stdio
import Mathlib.Algebra.Order.Ring.Nat

/-!
# Loading a file

`loadfile` reads a file to its end into a buffer that is doubled whenever it is full. The one thing
to know about it is what it does of the error flag. A read that was interrupted is to be tried
again, so the loop begins a new turn before it looks at anything else. But nothing clears the flag,
and so it does the same after every read that follows, whatever that one has given: the end of the
file is not looked for any more, and the buffer is not doubled any more either.

So one interruption, however early, and the file is never loaded. Without one it is, as long as
the size of the buffer can be doubled without wrapping round (`AnuDB.loadsAll_iff`).
-/

namespace AnuDB

open Stdio

/-- `BUFSIZ`. -/
def BUFSIZ : UInt64 := 8192

/-- How `loadfile` ends. -/
inductive Loaded where
  /-- It returns: what `datap` and `lenp` point to. -/
  | returned (data : Buffer) (len : UInt64) : Loaded
  /-- `exit(1)`. -/
  | exited : Loaded
  /-- Something is written outside of the buffer. -/
  | overran : Loaded

/-- What `loadfile` knows when a turn of its loop begins. -/
structure Loading where
  /-- The file. -/
  f : Stream
  /-- The buffer. -/
  fdata : Buffer
  /-- How much has been read. -/
  total_read : UInt64
  /-- How much there is room for. -/
  allocation_size : UInt64

namespace Loading

/-- The first turn. -/
def start (f : Stream) : Loading := ⟨f, .malloc (BUFSIZ + 1).toNat, 0, BUFSIZ⟩

/-- After the loop: a NUL behind what was read. -/
def finish (fdata : Buffer) (total_read : UInt64) : Loaded :=
  match fdata.write total_read.toNat [0] with
  | none => .overran
  | some data => .returned data total_read

/-- A buffer that is full is doubled. -/
def grow (l : Loading) : Loading :=
  if l.total_read = l.allocation_size then
    -- beyond `SIZE_MAX / 2` it says that it is out of memory, and goes on
    let allocation_size := l.allocation_size * 2
    { l with allocation_size, fdata := l.fdata.realloc (allocation_size + 1).toNat }
  else l

/-- **A turn of the loop.** -/
def turn (l : Loading) : Loading ⊕ Loaded :=
  let (bytes, f) := l.f.fread (l.allocation_size - l.total_read).toNat
  match l.fdata.write l.total_read.toNat bytes with
  | none => .inr .overran
  | some fdata =>
    let l := ⟨f, fdata, l.total_read + UInt64.ofNat bytes.length, l.allocation_size⟩
    if f.error then
      if f.errno = EINTR then .inl l else .inr .exited
    else if f.eof then .inr (finish l.fdata l.total_read)
    else .inl l.grow

end Loading

/-- **`loadfile`**, in so many turns at most, on the file that was opened. -/
def loadfile (turns : ℕ) : Option Stream → Option Loaded
  | none => some .exited
  | some f => Loop.run Loading.turn turns (.start f)

/-- **The file is loaded**: there is an end, and the buffer begins with what is in the file and a
NUL, and that is the number of bytes. -/
def LoadsAll (contents : List UInt8) (pattern : List ReadEvent) (errno : ℕ) : Prop :=
  ∃ turns data len, loadfile turns (some (.opened contents pattern errno)) =
      some (.returned data len) ∧
    data.Holds (contents ++ [0]) ∧ len.toNat = contents.length

namespace Loading

variable {l : Loading} {contents : List UInt8} {bytes : List UInt8} {f : Stream} {fdata : Buffer}

/-! ### Interruptions -/

theorem f_grow (l : Loading) : l.grow.f = l.f := by
  rw [grow]
  split_ifs
  · rfl
  · rfl

/-- What a turn does with what was read, where that can be written. -/
theorem turn_of_write (hread : l.f.fread (l.allocation_size - l.total_read).toNat = (bytes, f))
    (hwrite : l.fdata.write l.total_read.toNat bytes = some fdata) :
    l.turn =
      if f.error then
        if f.errno = EINTR then
          .inl ⟨f, fdata, l.total_read + UInt64.ofNat bytes.length, l.allocation_size⟩
        else .inr .exited
      else if f.eof then .inr (finish fdata (l.total_read + UInt64.ofNat bytes.length))
      else .inl
        (grow ⟨f, fdata, l.total_read + UInt64.ofNat bytes.length, l.allocation_size⟩) := by
  rw [turn, hread]
  simp only [hwrite]

theorem turn_of_overran (hread : l.f.fread (l.allocation_size - l.total_read).toNat = (bytes, f))
    (hwrite : l.fdata.write l.total_read.toNat bytes = none) : l.turn = .inr .overran := by
  rw [turn, hread]
  simp only [hwrite]

/-- **After an interruption the loop is not left**, but to write outside of the buffer. -/
theorem turn_of_stirred (h : l.f.Stirred) :
    (∃ l', l.turn = .inl l' ∧ l'.f = (l.f.fread (l.allocation_size - l.total_read).toNat).2) ∨
      l.turn = .inr .overran ∧ (l.f.fread (l.allocation_size - l.total_read).toNat).1 ≠ [] := by
  have hstirred := h.fread (l.allocation_size - l.total_read).toNat
  rcases hread : l.f.fread (l.allocation_size - l.total_read).toNat with ⟨bytes, f⟩
  rw [hread] at hstirred
  rcases hwrite : l.fdata.write l.total_read.toNat bytes with _ | fdata
  · refine Or.inr ⟨turn_of_overran hread hwrite, fun hbytes => ?_⟩
    rw [Buffer.write, if_pos hbytes] at hwrite
    cases hwrite
  · rw [turn_of_write hread hwrite]
    refine Or.inl ?_
    obtain ⟨herror, herrno⟩ | ⟨herror, heof, -⟩ : f.Stirred := hstirred
    · rw [if_pos herror, if_pos herrno]
      exact ⟨_, rfl, rfl⟩
    · rw [herror, heof, if_neg Bool.false_ne_true, if_neg Bool.false_ne_true]
      exact ⟨_, rfl, f_grow _⟩

theorem ne_returned_of_stirred (h : l.f.Stirred) {turns : ℕ} {r : Loaded}
    (hrun : Loop.run turn turns l = some r) (data : Buffer) (len : UInt64) :
    r ≠ .returned data len := by
  refine Loop.of_run (I := fun l => l.f.Stirred) (Q := fun r => r ≠ .returned data len)
    (fun l hl => ?_) h hrun
  rcases turn_of_stirred hl with ⟨l', hgoes, hf⟩ | ⟨hleaves, -⟩
  · exact Or.inl ⟨l', hgoes, hf ▸ hl.fread _⟩
  · exact Or.inr ⟨_, hleaves, by simp⟩

/-- **Where there is nothing left to read the loop goes on for ever.** -/
theorem run_eq_none_of_stirred (h : l.f.Stirred) (hrest : l.f.rest = []) (turns : ℕ) :
    Loop.run turn turns l = none := by
  refine Loop.run_eq_none (I := fun l => l.f.Stirred ∧ l.f.rest = []) ?_ ⟨h, hrest⟩ turns
  rintro l ⟨hl, hnothing⟩
  have happend := l.f.fread_append_rest (l.allocation_size - l.total_read).toNat
  rw [hnothing, List.append_eq_nil_iff] at happend
  rcases turn_of_stirred hl with ⟨l', hgoes, hf⟩ | ⟨-, hne⟩
  · exact ⟨l', hgoes, hf ▸ hl.fread _, hf ▸ happend.2⟩
  · exact absurd happend.1 hne

/-! ### Files without one -/

/-- **What holds within a turn**: what was read and what is left are the file, and what was read is
in the buffer. -/
structure Sound (contents : List UInt8) (l : Loading) : Prop where
  calm : l.f.Calm
  eof : l.f.eof = false
  held : ∃ read, contents = read ++ l.f.rest ∧ l.total_read.toNat = read.length ∧
    l.fdata.Holds read
  length : l.fdata.length = l.allocation_size.toNat + 1
  size : ∃ k < 64, l.allocation_size.toNat = 2 ^ k
  le : l.total_read.toNat ≤ l.allocation_size.toNat

/-- When a turn begins, there is room for more. -/
structure Ready (contents : List UInt8) (l : Loading) : Prop extends Sound contents l where
  room : l.total_read.toNat < l.allocation_size.toNat

/-- **The size of the buffer has wrapped round.** -/
structure Burst (l : Loading) : Prop where
  calm : l.f.Calm
  eof : l.f.eof = false
  length : l.fdata.length = 1
  size : l.allocation_size = 0
  total : l.total_read.toNat = 2 ^ 63

theorem Sound.grow (h : Sound contents l) :
    Ready contents l.grow ∨ 2 ^ 63 ≤ contents.length ∧ l.grow.Burst := by
  obtain ⟨k, hk, hsize⟩ := h.size
  obtain ⟨read, hcontents, htotal, hholds⟩ := h.held
  rw [Loading.grow]
  split_ifs with hfull
  · have htwice : (l.allocation_size * 2).toNat = 2 ^ (k + 1) % 2 ^ 64 := by
      rw [UInt64.toNat_mul, hsize, Nat.pow_succ]
      rfl
    have hread : read.length = 2 ^ k := by rw [← htotal, hfull, hsize]
    rcases Nat.lt_or_ge (k + 1) 64 with hlt | hge
    · have hpow : 2 ^ (k + 1) ≤ 2 ^ 63 := Nat.pow_le_pow_right (by decide) (Nat.le_of_lt_succ hlt)
      have hsucc : 2 ^ (k + 1) = 2 ^ k * 2 := Nat.pow_succ ..
      have hpos : 0 < 2 ^ k := Nat.pow_pos (by decide)
      rw [Nat.mod_eq_of_lt (by omega)] at htwice
      have hnul : (l.allocation_size * 2 + 1).toNat = 2 ^ (k + 1) + 1 := by
        rw [UInt64.toNat_add, htwice, UInt64.toNat_one, Nat.mod_eq_of_lt (by omega)]
      left
      refine ⟨⟨h.calm, h.eof, ⟨read, hcontents, htotal, hholds.realloc ?_⟩, ?_,
        ⟨k + 1, hlt, htwice⟩, ?_⟩, ?_⟩
      · rw [hread, hnul]
        omega
      · rw [Buffer.length_realloc, hnul, htwice]
      · rw [htotal, htwice, hread]
        omega
      · rw [htotal, htwice, hread]
        omega
    · -- the greatest power of two has been doubled
      obtain rfl : k = 63 := by omega
      have hzero : l.allocation_size * 2 = 0 := UInt64.toNat_inj.mp (htwice.trans (by decide))
      right
      refine ⟨?_, h.calm, h.eof, ?_, hzero, ?_⟩
      · rw [hcontents, List.length_append, hread]
        omega
      · rw [Buffer.length_realloc, hzero]
        rfl
      · rw [htotal, hread]
  · refine Or.inl ⟨h, Nat.lt_of_le_of_ne h.le fun heq => hfull ?_⟩
    exact UInt64.toNat_inj.mp heq

/-- How much there is left to do: the reads that will not be full, and what has not been read. -/
def left (l : Loading) : ℕ := l.f.pattern.length + l.f.rest.length

/-- The file has been loaded. -/
def Whole (contents : List UInt8) (r : Loaded) : Prop :=
  ∃ data len, r = .returned data len ∧ data.Holds (contents ++ [0]) ∧ len.toNat = contents.length

/-- **A turn without an interruption**: it reads something or uses up a read of the pattern, or it
comes to the end, unless the size of the buffer wraps round. -/
theorem Ready.turn (h : Ready contents l) :
    (∃ l', l.turn = .inl l' ∧ (Ready contents l' ∧ l'.left < l.left ∨
      2 ^ 63 ≤ contents.length ∧ l'.Burst)) ∨
    contents.length < 2 ^ 63 ∧ ∃ r, l.turn = .inr r ∧ Whole contents r := by
  obtain ⟨k, hk, hsize⟩ := h.size
  obtain ⟨read, hcontents, htotal, hholds⟩ := h.held
  -- what is asked for is the rest of the block, which is not empty
  have hpow : 2 ^ k ≤ 2 ^ 63 := Nat.pow_le_pow_right (by decide) (Nat.le_of_lt_succ hk)
  have hrequest : (l.allocation_size - l.total_read).toNat =
      l.allocation_size.toNat - l.total_read.toNat :=
    UInt64.toNat_sub_of_le _ _ (UInt64.le_iff_toNat_le.mpr h.le)
  have hroom := h.room
  have hpos : 0 < (l.allocation_size - l.total_read).toNat := by omega
  have happend := l.f.fread_append_rest (l.allocation_size - l.total_read).toNat
  have hle := l.f.length_fread_le (l.allocation_size - l.total_read).toNat
  obtain ⟨hcalm, hcases⟩ := h.calm.fread_cases h.eof hpos
  rcases hread : l.f.fread (l.allocation_size - l.total_read).toNat with ⟨bytes, f⟩
  rw [hread] at happend hle hcalm hcases
  simp only at happend hle hcalm hcases
  -- there is room for what was read
  have hfits : read.length + bytes.length ≤ l.fdata.length := by
    rw [h.length]
    omega
  obtain ⟨fdata, hwrite, hlength, hholds'⟩ := hholds.exists_write hfits
  rw [← htotal] at hwrite
  have hadded : (l.total_read + UInt64.ofNat bytes.length).toNat = (read ++ bytes).length := by
    rw [UInt64.toNat_add, UInt64.toNat_ofNat', List.length_append, htotal]
    omega
  have hall : contents = (read ++ bytes) ++ f.rest := by
    rw [hcontents, ← happend, List.append_assoc]
  rw [turn_of_write hread hwrite, hcalm.error, if_neg Bool.false_ne_true]
  -- before the end of the file the loop goes on, and less is left
  have hgoes (heof : f.eof = false) (hless : f.pattern.length + f.rest.length < l.left) :
      ∃ l', (.inl (Loading.grow ⟨f, fdata, l.total_read + UInt64.ofNat bytes.length,
        l.allocation_size⟩) : Loading ⊕ Loaded) = .inl l' ∧
          (Ready contents l' ∧ l'.left < l.left ∨ 2 ^ 63 ≤ contents.length ∧ l'.Burst) := by
    have hsound : Sound contents
        ⟨f, fdata, l.total_read + UInt64.ofNat bytes.length, l.allocation_size⟩ := by
      refine ⟨hcalm, heof, ⟨read ++ bytes, hall, hadded, hholds'⟩, hlength.trans h.length,
        ⟨k, hk, hsize⟩, ?_⟩
      change (l.total_read + UInt64.ofNat bytes.length).toNat ≤ l.allocation_size.toNat
      rw [hadded, List.length_append]
      omega
    refine ⟨_, rfl, hsound.grow.imp_left fun hready => ⟨hready, ?_⟩⟩
    rw [left, f_grow]
    exact hless
  rcases hcases with ⟨heof, hfewer⟩ | ⟨heof, hsame, hfull⟩ | ⟨heof, hrest, hfewer⟩
  · rw [heof, if_neg Bool.false_ne_true]
    refine Or.inl (hgoes heof ?_)
    rw [left, ← happend, List.length_append]
    omega
  · rw [heof, if_neg Bool.false_ne_true]
    refine Or.inl (hgoes heof ?_)
    rw [left, hsame, ← happend, List.length_append]
    omega
  · -- the end of the file, and the NUL behind it
    rw [heof, if_pos rfl]
    rw [hrest, List.append_nil] at hall
    have hnul : (read ++ bytes).length + [(0 : UInt8)].length ≤ fdata.length := by
      rw [hlength, h.length, List.length_append, List.length_singleton]
      omega
    obtain ⟨data, hdata, -, hwhole⟩ := hholds'.exists_write hnul
    rw [← hadded] at hdata
    right
    refine ⟨?_, _, rfl, data, _, ?_, hall ▸ hwhole, hadded.trans (congrArg List.length hall.symm)⟩
    · rw [hall, List.length_append]
      omega
    · rw [finish, hdata]

/-- **With a buffer that has wrapped round nothing is loaded**: the next byte is written outside of
it, be it the NUL. -/
theorem Burst.turn (h : l.Burst) :
    (∃ l', l.turn = .inl l' ∧ l'.Burst) ∨ l.turn = .inr .overran := by
  have hoffset : l.fdata.length ≤ l.total_read.toNat := by
    rw [h.length, h.total]
    omega
  have hpos : 0 < (l.allocation_size - l.total_read).toNat := by
    rw [h.size, UInt64.toNat_sub, h.total]
    decide
  obtain ⟨hcalm, hcases⟩ := h.calm.fread_cases h.eof hpos
  rcases hread : l.f.fread (l.allocation_size - l.total_read).toNat with ⟨bytes, f⟩
  rw [hread] at hcalm hcases
  simp only at hcalm hcases
  by_cases hbytes : bytes = []
  · subst hbytes
    have hwrite : l.fdata.write l.total_read.toNat [] = some l.fdata := if_pos rfl
    have hsame : l.total_read + UInt64.ofNat ([] : List UInt8).length = l.total_read :=
      UInt64.add_zero _
    rw [turn_of_write hread hwrite, hcalm.error, if_neg Bool.false_ne_true, hsame]
    rcases Bool.eq_false_or_eq_true f.eof with heof | heof
    · rw [heof, if_pos rfl, finish, Buffer.write_eq_none (List.cons_ne_nil _ _) hoffset]
      exact Or.inr rfl
    · rw [heof, if_neg Bool.false_ne_true]
      have hne : l.total_read ≠ l.allocation_size := by
        rintro heq
        have htotal := h.total
        rw [heq, h.size] at htotal
        cases htotal
      refine Or.inl ⟨_, rfl, ?_⟩
      rw [Loading.grow, if_neg hne]
      exact ⟨hcalm, heof, h.length, h.size, h.total⟩
  · exact Or.inr (turn_of_overran hread (Buffer.write_eq_none hbytes hoffset))

end Loading

open Loading

/-- **Which files are loaded**: those of less than `2 ^ 63` bytes, if no read is interrupted. -/
theorem loadsAll_iff (contents : List UInt8) (pattern : List ReadEvent) (errno : ℕ) :
    LoadsAll contents pattern errno ↔
      (∀ event ∈ pattern, ∃ n, event = .short n) ∧ contents.length < 2 ^ 63 := by
  by_cases hshort : ∀ event ∈ pattern, ∃ n, event = .short n
  · have hready : Ready contents (start (.opened contents pattern errno)) := by
      refine ⟨⟨⟨rfl, hshort⟩, rfl, ⟨[], rfl, rfl, Buffer.holds_nil _⟩, ?_, ⟨13, by decide, rfl⟩,
        Nat.zero_le _⟩, ?_⟩
      · exact Buffer.length_malloc _
      · change (0 : UInt64).toNat < BUFSIZ.toNat
        decide
    rw [and_iff_right hshort]
    constructor
    · rintro ⟨turns, data, len, hrun, -⟩
      by_contra hlong
      refine Loop.of_run (I := fun l => Ready contents l ∨ l.Burst)
        (Q := fun r => r ≠ .returned data len) (fun l hl => ?_) (Or.inl hready) hrun rfl
      rcases hl with hl | hl
      · rcases hl.turn with ⟨l', hgoes, hl'⟩ | ⟨hlt, -⟩
        · exact Or.inl ⟨l', hgoes, hl'.imp And.left And.right⟩
        · exact absurd hlt hlong
      · rcases hl.turn with ⟨l', hgoes, hl'⟩ | hleaves
        · exact Or.inl ⟨l', hgoes, Or.inr hl'⟩
        · exact Or.inr ⟨_, hleaves, by simp⟩
    · intro hlt
      have hturn (l : Loading) (hl : Ready contents l) :
          (∃ l', l.turn = .inl l' ∧ Ready contents l' ∧ l'.left < l.left) ∨
            ∃ r, l.turn = .inr r ∧ Whole contents r := by
        rcases hl.turn with ⟨l', hgoes, hl' | ⟨hlong, -⟩⟩ | ⟨-, hleaves⟩
        · exact Or.inl ⟨l', hgoes, hl'⟩
        · exact absurd hlong (Nat.not_le.mpr hlt)
        · exact Or.inr hleaves
      obtain ⟨turns, r, hrun, data, len, rfl, hwhole⟩ := Loop.exists_run hturn hready
      exact ⟨turns, data, len, hrun, hwhole⟩
  · refine iff_of_false ?_ fun h => hshort h.1
    rintro ⟨turns, data, len, hrun, -⟩
    exact ne_returned_of_stirred (Stream.stirred_opened hshort) hrun data len rfl

/-- **One interruption, and an empty file is never loaded**: the loop has no end. -/
theorem not_loadsAll_interrupted : ¬LoadsAll [] [.interrupted 0] 0 ∧
    ¬∃ turns r, loadfile turns (some (.opened [] [.interrupted 0] 0)) = some r := by
  have hnever : ¬∃ turns r, loadfile turns (some (.opened [] [.interrupted 0] 0)) = some r := by
    rintro ⟨turns, r, hrun⟩
    have hstirred : (Stream.opened [] [.interrupted 0] 0).Stirred :=
      Or.inr ⟨rfl, rfl, 0, List.mem_singleton_self _⟩
    cases (run_eq_none_of_stirred hstirred rfl turns).symm.trans hrun
  exact ⟨fun ⟨turns, data, len, hrun, _⟩ => hnever ⟨turns, _, hrun⟩, hnever⟩

end AnuDB
