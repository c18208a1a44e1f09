import Mathlib.Data.List.Basic
import Mathlib.Order.Basic

/-!
# Streams and buffers

What a C program sees of a file it reads, and of the memory it reads it into.

How much a read gives is not for the program to say. A stream has a list of the reads that give
less than they could, or are interrupted on top of that, and after those the reads are full
(`Stdio.Stream.fread`). The end of the file is seen by a full read that gets less than it asks for.
Both flags stay set: nothing here clears them.

Memory that has been allocated is a list of bytes, those nobody has written among them. A write
that does not stay within is none (`Stdio.Buffer.write`).
-/

namespace Stdio

/-! ### Streams -/

/-- `EINTR`. -/
def EINTR : ℕ := 4

/-- A read that gives less than it could. -/
inductive ReadEvent where
  /-- So many bytes at most, for no reason. -/
  | short (n : ℕ) : ReadEvent
  /-- So many bytes at most, before a signal came. -/
  | interrupted (n : ℕ) : ReadEvent

/-- **A stream**, open to be read. -/
structure Stream where
  /-- What has not been read. -/
  rest : List UInt8
  /-- The reads that will not be full; those after them will. -/
  pattern : List ReadEvent
  /-- `ferror`. -/
  error : Bool
  /-- `feof`. -/
  eof : Bool
  /-- `errno`. -/
  errno : ℕ

namespace Stream

/-- A stream that has just been opened. -/
def opened (contents : List UInt8) (pattern : List ReadEvent) (errno : ℕ) : Stream :=
  ⟨contents, pattern, false, false, errno⟩

/-- What a read of at most `n` bytes leaves. -/
def advance (f : Stream) (n : ℕ) (pattern : List ReadEvent) : Stream :=
  { f with rest := f.rest.drop n, pattern }

/-- **`fread`**: the bytes, and the stream. A read of nothing leaves the stream alone. -/
def fread (f : Stream) (request : ℕ) : List UInt8 × Stream :=
  if request = 0 then ([], f)
  else
    match f.pattern with
    | .short n :: pattern => (f.rest.take (min n request), f.advance (min n request) pattern)
    | .interrupted n :: pattern =>
      (f.rest.take (min n request),
        { f.advance (min n request) pattern with error := true, errno := EINTR })
    | [] =>
      (f.rest.take request,
        { f.advance request [] with eof := f.eof || decide (f.rest.length < request) })

variable {f : Stream} {request : ℕ}

/-- **A read loses nothing.** -/
theorem fread_append_rest (f : Stream) (request : ℕ) :
    (f.fread request).1 ++ (f.fread request).2.rest = f.rest := by
  rw [fread]
  split_ifs
  · rfl
  · split
    · exact List.take_append_drop _ _
    · exact List.take_append_drop _ _
    · exact List.take_append_drop _ _

/-- No more is read than was asked for. -/
theorem length_fread_le (f : Stream) (request : ℕ) : (f.fread request).1.length ≤ request := by
  rw [fread]
  split_ifs
  · exact Nat.zero_le _
  · split
    · exact Nat.le_trans (List.length_take_le _ _) (Nat.min_le_right _ _)
    · exact Nat.le_trans (List.length_take_le _ _) (Nat.min_le_right _ _)
    · exact List.length_take_le _ _

/-- No read of the stream will be interrupted, and none has been. -/
structure Calm (f : Stream) : Prop where
  error : f.error = false
  short : ∀ event ∈ f.pattern, ∃ n, event = .short n

/-- **A read of a calm stream** is short, or full, or comes to the end. -/
theorem Calm.fread_cases (h : f.Calm) (heof : f.eof = false) (hrequest : 0 < request) :
    (f.fread request).2.Calm ∧
      ((f.fread request).2.eof = false ∧
          (f.fread request).2.pattern.length < f.pattern.length ∨
        (f.fread request).2.eof = false ∧ (f.fread request).2.pattern = f.pattern ∧
          (f.fread request).1.length = request ∨
        (f.fread request).2.eof = true ∧ (f.fread request).2.rest = [] ∧
          (f.fread request).1.length < request) := by
  obtain ⟨rest, pattern, error, eof, errno⟩ := f
  obtain rfl : error = false := h.error
  obtain rfl : eof = false := heof
  have hne : ¬request = 0 := Nat.ne_of_gt hrequest
  rw [fread, if_neg hne]
  cases pattern with
  | nil =>
    refine ⟨⟨rfl, fun event hevent => absurd hevent List.not_mem_nil⟩, Or.inr ?_⟩
    rcases Nat.lt_or_ge rest.length request with hlt | hle
    · refine Or.inr ⟨decide_eq_true hlt, List.drop_of_length_le (Nat.le_of_lt hlt), ?_⟩
      exact Nat.lt_of_le_of_lt (List.length_take_le' _ _) hlt
    · exact Or.inl ⟨decide_eq_false (Nat.not_lt.mpr hle), rfl, List.length_take_of_le hle⟩
  | cons event pattern =>
    obtain ⟨n, rfl⟩ := h.short event List.mem_cons_self
    refine ⟨⟨rfl, fun event hevent => h.short event (List.mem_cons_of_mem _ hevent)⟩, Or.inl ?_⟩
    exact ⟨rfl, Nat.lt_succ_self _⟩

/-- A read of the stream has been interrupted, or will be before the end is seen. -/
def Stirred (f : Stream) : Prop :=
  f.error = true ∧ f.errno = EINTR ∨
    f.error = false ∧ f.eof = false ∧ ∃ n, .interrupted n ∈ f.pattern

/-- **That stays so**: an interruption is not forgotten. -/
theorem Stirred.fread (h : f.Stirred) (request : ℕ) : (f.fread request).2.Stirred := by
  obtain ⟨rest, pattern, error, eof, errno⟩ := f
  rw [Stream.fread]
  split_ifs
  · exact h
  · rcases h with ⟨herror, herrno⟩ | ⟨herror, heof, n, hmem⟩
    · refine Or.inl ?_
      rcases pattern with _ | ⟨n | n, pattern⟩
      · exact ⟨herror, herrno⟩
      · exact ⟨herror, herrno⟩
      · exact ⟨rfl, rfl⟩
    · rcases pattern with _ | ⟨m | m, pattern⟩
      · cases hmem
      · rcases List.mem_cons.mp hmem with hfirst | hmem
        · cases hfirst
        · exact Or.inr ⟨herror, heof, n, hmem⟩
      · exact Or.inl ⟨rfl, rfl⟩

/-- A stream is calm or stirred when it is opened. -/
theorem stirred_opened {contents : List UInt8} {pattern : List ReadEvent} {errno : ℕ}
    (h : ¬∀ event ∈ pattern, ∃ n, event = .short n) : (opened contents pattern errno).Stirred := by
  push Not at h
  obtain ⟨event, hmem, hevent⟩ := h
  refine Or.inr ⟨rfl, rfl, ?_⟩
  cases event with
  | short n => exact absurd rfl (hevent n)
  | interrupted n => exact ⟨n, hmem⟩

end Stream

/-! ### Buffers -/

/-- Memory that has been allocated, with the bytes that have been written. -/
abbrev Buffer : Type := List (Option UInt8)

namespace Buffer

/-- `malloc`, where there is memory. -/
def malloc (size : ℕ) : Buffer := List.replicate size none

/-- `realloc`, where there is memory. -/
def realloc (b : Buffer) (size : ℕ) : Buffer :=
  b.take size ++ List.replicate (size - b.length) none

/-- Bytes are written from an offset on, if they are within. -/
def write (b : Buffer) (offset : ℕ) (bytes : List UInt8) : Option Buffer :=
  if bytes = [] then some b
  else if offset + bytes.length ≤ b.length then
    some (b.take offset ++ (bytes.map some ++ b.drop (offset + bytes.length)))
  else none

/-- The buffer begins with the bytes. -/
def Holds (b : Buffer) (bytes : List UInt8) : Prop := bytes.map some <+: b

variable {b b' : Buffer} {bytes more : List UInt8} {size : ℕ}

theorem length_malloc (size : ℕ) : (malloc size).length = size := List.length_replicate

theorem length_realloc (b : Buffer) (size : ℕ) : (b.realloc size).length = size := by
  rw [realloc, List.length_append, List.length_take, List.length_replicate]
  omega

theorem holds_nil (b : Buffer) : b.Holds [] := List.nil_prefix

/-- What is reallocated keeps what it held. -/
theorem Holds.realloc (h : b.Holds bytes) (hsize : bytes.length ≤ size) :
    (b.realloc size).Holds bytes := by
  refine List.IsPrefix.trans ?_ (List.prefix_append _ _)
  refine List.prefix_take_iff.mpr ⟨h, ?_⟩
  rwa [List.length_map]

/-- **What is written behind what is held is held with it.** -/
theorem Holds.exists_write (h : b.Holds bytes) (hsize : bytes.length + more.length ≤ b.length) :
    ∃ b', b.write bytes.length more = some b' ∧ b'.length = b.length ∧
      b'.Holds (bytes ++ more) := by
  rw [write]
  split_ifs with hnil
  · refine ⟨b, rfl, rfl, ?_⟩
    rwa [hnil, List.append_nil]
  · refine ⟨_, rfl, ?_, ?_⟩
    · simp only [List.length_append, List.length_take, List.length_map, List.length_drop]
      omega
    · have htake : b.take bytes.length = bytes.map some := by
        have hprefix := List.prefix_iff_eq_take.mp h
        rw [List.length_map] at hprefix
        exact hprefix.symm
      rw [htake, ← List.append_assoc, ← List.map_append]
      exact List.prefix_append _ _

/-- What does not fit is not written. -/
theorem write_eq_none (hne : bytes ≠ []) {offset : ℕ} (h : b.length ≤ offset) :
    b.write offset bytes = none := by
  have hpos := List.length_pos_iff.mpr hne
  rw [write, if_neg hne, if_neg (by omega)]

end Buffer

end Stdio
