import Mathlib.Data.List.TakeDrop
import NetworksLab.Core.Bytes
import NetworksLab.Core.Blocks

/-!
# `std::istream` and `std::ostream` as the TFTP code uses them

The streams of the standard library, as far as `read`/`gcount`/`eof` and
`write` go. An input stream is its unread bytes, what is met behind them and
the three state flags; an output stream is the bytes it was given, those of
them that have reached the file, and whether it is still good.

Results:
* `IStream.read_full`, `IStream.read_short`: one `read` of a good stream on
  the bytes `D`.
* `IStream.At`: the stream after `n` reads of `k` bytes each, good or at its
  end; `IStream.At.read`: the next read returns block `n` and moves on,
  raising `eofbit` exactly when the block is short.
* `OStream.written_write_iff`: when a write reaches the file.
-/
namespace NetworksLab.L2.Stream

/-- What a read finds behind the last byte: the end of the file or an error. -/
inductive Ending where
  | eof | fault
  deriving DecidableEq, Repr

structure IStream where
  rest : Bytes
  ending : Ending
  eofbit : Bool
  failbit : Bool
  badbit : Bool
  deriving DecidableEq, Repr

namespace IStream

/-- `good()` -/
def good (s : IStream) : Bool := !s.eofbit && !s.failbit && !s.badbit

/-- A good stream on the bytes `D`. -/
def ofBytes (D : Bytes) : IStream := ⟨D, .eof, false, false, false⟩

/-- `std::ifstream` on a file that could not be opened. -/
def unopened : IStream := ⟨[], .eof, false, true, false⟩

/-- `read(buf, n)`: the `gcount()` bytes that were stored, and the stream. A
stream that is not good sets `failbit` and stores nothing; the end of the file
sets `eofbit` and `failbit`. An error inside the buffer sets `badbit`, and
`gcount()` is 0. -/
def read (s : IStream) (n : Nat) : Bytes × IStream :=
  if !s.good then ([], { s with failbit := true })
  else if n ≤ s.rest.length then (s.rest.take n, { s with rest := s.rest.drop n })
  else match s.ending with
    | .eof => (s.rest, { s with rest := [], eofbit := true, failbit := true })
    | .fault => ([], { s with rest := [], badbit := true })

/-- `std::istreambuf_iterator` from here to its end, which reads the buffer and
no flag. `none` is the exception that the buffer throws on a read error. -/
def contents (s : IStream) : Option Bytes :=
  match s.ending with
  | .eof => some s.rest
  | .fault => none

/-! ### One read, by what it finds -/

theorem read_of_not_good {s : IStream} (h : s.good = false) (n : Nat) :
    s.read n = ([], { s with failbit := true }) := by
  simp [read, h]

theorem read_of_le {s : IStream} {n : Nat} (h : s.good = true) (hn : n ≤ s.rest.length) :
    s.read n = (s.rest.take n, { s with rest := s.rest.drop n }) := by
  simp [read, h, hn]

theorem read_eof {s : IStream} {n : Nat} (h : s.good = true) (hn : s.rest.length < n)
    (he : s.ending = .eof) : s.read n = (s.rest, { s with rest := [], eofbit := true, failbit := true }) := by
  simp [read, h, Nat.not_le.mpr hn, he]

theorem read_fault {s : IStream} {n : Nat} (h : s.good = true) (hn : s.rest.length < n)
    (he : s.ending = .fault) : s.read n = ([], { s with rest := [], badbit := true }) := by
  simp [read, h, Nat.not_le.mpr hn, he]

theorem read_full {D : Bytes} {n : Nat} (h : n ≤ D.length) :
    (ofBytes D).read n = (D.take n, ofBytes (D.drop n)) := read_of_le rfl h

theorem read_short {D : Bytes} {n : Nat} (h : D.length < n) :
    (ofBytes D).read n = (D, ⟨[], .eof, true, true, false⟩) := read_eof rfl h rfl

/-- The stream on `D` after `n` reads of `k` bytes, if none of the first
`n - 1` came short. -/
def At (k : Nat) (D : Bytes) (n : Nat) (s : IStream) : Prop :=
  if k * n ≤ D.length then s = ofBytes (D.drop (k * n)) else s.eofbit = true

variable {k : Nat} {D : Bytes} {n : Nat} {s : IStream}

theorem At.start : At k D 0 (ofBytes D) := by simp [At]

/-- `eof()` after `n` reads tells whether the last one came short. -/
theorem At.eofbit (h : At k D n s) : s.eofbit = true ↔ D.length < k * n := by
  unfold At at h
  split at h
  · subst h
    simp only [ofBytes, Bool.false_eq_true, false_iff]
    omega
  · simp only [h, true_iff]
    omega

/-- The next read of a stream that is not at its end returns the next block. -/
theorem At.read (h : At k D n s) (hs : k * n ≤ D.length) :
    (s.read k).1 = block k D n ∧ At k D (n + 1) (s.read k).2 := by
  rw [At, if_pos hs] at h
  subst h
  by_cases hf : k * (n + 1) ≤ D.length
  · rw [read_full (by rw [List.length_drop, Nat.mul_succ] at *; omega), List.drop_drop]
    exact ⟨rfl, by rw [At, if_pos hf, Nat.mul_succ]⟩
  · rw [read_short (by rw [List.length_drop, Nat.mul_succ] at *; omega)]
    refine ⟨?_, by rw [At, if_neg hf]⟩
    rw [block, List.take_of_length_le (by rw [List.length_drop, Nat.mul_succ] at *; omega)]

end IStream

/-- What becomes of the next bytes handed to a file: all of them are stored, or
the write fails behind the first `k`. -/
inductive Disk where
  | stores
  | fails (k : Nat)
  deriving DecidableEq, Repr

/-- All of `data` is stored. -/
def Disk.Keeps (data : Bytes) : Disk → Prop
  | .stores => True
  | .fails k => data.length ≤ k

/-- `given` is what has been handed to the stream, `written` what of it has
reached the file; they are the same as long as no write has failed. -/
structure OStream where
  given : Bytes
  written : Bytes
  good : Bool
  isPrefix : written <+: given
  eq_of_good : good = true → written = given
  deriving DecidableEq, Repr

namespace OStream

/-- `std::ofstream` on a file name: the file is empty, or could not be opened. -/
def ofFile (opened : Bool) : OStream := ⟨[], [], opened, List.prefix_rfl, fun _ => rfl⟩

/-- `write` and `flush`. A stream that is not good stores nothing. -/
def write (s : OStream) (data : Bytes) (disk : Disk) : OStream :=
  if h : s.good = true then
    match disk with
    | .stores => ⟨s.given ++ data, s.written ++ data, true,
        s.eq_of_good h ▸ List.prefix_rfl, fun _ => by rw [s.eq_of_good h]⟩
    | .fails k => ⟨s.given ++ data, s.written ++ data.take k, false,
        s.eq_of_good h ▸ (List.prefix_append_right_inj _).mpr (List.take_prefix _ _), nofun⟩
  else ⟨s.given ++ data, s.written, false, s.isPrefix.trans (List.prefix_append _ _), nofun⟩

@[simp] theorem given_write (s : OStream) (data : Bytes) (disk : Disk) :
    (s.write data disk).given = s.given ++ data := by
  unfold write
  split
  · cases disk <;> rfl
  · rfl

theorem good_write (s : OStream) (data : Bytes) (disk : Disk) :
    (s.write data disk).good = (s.good && decide (disk = .stores)) := by
  unfold write
  split
  · rename_i h
    rw [h]
    cases disk <;> rfl
  · rename_i h
    rw [eq_false_of_ne_true h]
    rfl

/-- As long as nothing is missing, a write is stored if there is nothing to
write, or the stream is good and the disk keeps it. -/
theorem written_write_iff {s : OStream} (h : s.written = s.given) (data : Bytes) (disk : Disk) :
    (s.write data disk).written = s.given ++ data ↔ data = [] ∨ (s.good = true ∧ disk.Keeps data) := by
  unfold write
  split
  · rename_i hg
    cases disk with
    | stores => exact iff_of_true (congrArg (· ++ data) h) (.inr ⟨hg, trivial⟩)
    | fails k =>
      have hcut : s.written ++ data.take k = s.given ++ data ↔ data.length ≤ k := by
        rw [h, List.append_right_inj, List.take_eq_self_iff]
      refine hcut.trans ⟨fun hk => .inr ⟨hg, hk⟩, fun hor => ?_⟩
      rcases hor with rfl | ⟨-, hk⟩
      · exact Nat.zero_le k
      · exact hk
  · rename_i hg
    constructor
    · intro hw
      exact .inl (List.append_right_eq_self.mp (hw.symm.trans h))
    · rintro (rfl | ⟨hgood, -⟩)
      · exact h.trans (List.append_nil _).symm
      · exact absurd hgood hg

end OStream

end NetworksLab.L2.Stream
