import NetworksLab.L3Protocol.TftpServer

/-!
# How a reading session splits a file (`udp/lib/Server.cpp`)

`conversation` is a session whose peer acknowledges each block it gets. The two
subclasses are cursors over a text (`BlockCursor`): the octet session's moves on
until `eof()`, which a short read raises; the NetASCII session's until its index
is at the end of the contents. They part where the text is a whole number of
blocks long: then the last block of the one is empty, and the other sends none
behind the last full one.

Results:
* `conversation_eq`: the DATA packets that a session sends, for any cursor.
* `splitsFile_iff`: a session splits its file so that the receiver can tell the
  end, unless it is a NetASCII session on a whole number of blocks.
-/
namespace NetworksLab.L3.Tftp
open NetworksLab.L1.Packet NetworksLab.L1.NetAscii NetworksLab.L2.Stream

/-- The DATA packets of a session from packet `p` on, with an acknowledgement
for each of them, until `Handle` returns `false`. -/
def conversation (files : Files) : Nat → TReadingClientBase → TPacket → Option (List TDataPacket)
  | 0, _, _ => none
  | fuel + 1, c, p =>
    let h := c.handle files p
    match h.sends, h.more with
    | [], false => some []
    | [.data d], true =>
      (conversation files fuel h.client (.ack ⟨d.blockID⟩)).map fun ds => d :: ds
    | _, _ => none

/-- The text that a session sends. -/
def wireText (mode : ETransferMode) (F : Bytes) : Bytes :=
  match mode with
  | .octet => F
  | .netascii => toNetASCII F

/-- DATA packets that carry `text` in a way that shows where it ends. -/
structure Splits (text : Bytes) (ds : List TDataPacket) : Prop where
  ids : ds.map (·.blockID) = (List.range ds.length).map fun i => UInt16.ofNat (i + 1)
  payload : ds.flatMap (·.data) = text
  full : ∀ d ∈ ds.dropLast, d.data.length = 512
  last : ∃ d, ds.getLast? = some d ∧ d.data.length < 512

/-- A request for `filename` opens a session that splits the text of the file. -/
def SplitsFile (files : Files) (filename F : Bytes) (mode : ETransferMode) : Prop :=
  ∀ opened, ∃ c ds, newClient files opened ⟨.read, filename, mode⟩ = some (.reading c) ∧
    (∃ N, ∀ fuel, N ≤ fuel → conversation files fuel c (.request ⟨.read, filename, mode⟩) = some ds) ∧
    Splits (wireText mode F) ds

/-! ## Cursors -/

/-- `at_ i src`: the source has handed out the first `i` blocks of `text`; it
stops behind `last` of them. -/
structure BlockCursor (text : Bytes) (last : Nat) (at_ : Nat → Source → Prop) : Prop where
  eof : ∀ {i src}, at_ i src → (src.eof = true ↔ last ≤ i)
  next : ∀ {i src}, at_ i src → i < last →
    src.nextBlock.1 = block 512 text i ∧ at_ (i + 1) src.nextBlock.2

/-- Block `i` as it is sent. -/
def dataPacket (text : Bytes) (i : Nat) : TDataPacket := ⟨UInt16.ofNat (i + 1), block 512 text i⟩

variable {text : Bytes} {last : Nat} {at_ : Nat → Source → Prop}

/-- What a session sends when the packet is the one it waits for: by induction
on the number of blocks left. -/
theorem conversation_eq (hc : BlockCursor text last at_) (files : Files) (k : Nat) :
    ∀ {i src p fuel}, i + k = last → at_ i src →
      (TReadingClientBase.visitor files).visit p = .got (UInt16.ofNat i) → k < fuel →
      conversation files fuel ⟨UInt16.ofNat i, src⟩ p =
        some ((List.range' i k).map (dataPacket text)) := by
  induction k with
  | zero =>
    intro i src p fuel hk hat hp hfuel
    obtain ⟨fuel, rfl⟩ := Nat.exists_eq_succ_of_ne_zero (Nat.ne_of_gt hfuel)
    have he : src.eof = true := (hc.eof hat).mpr (Nat.le_of_eq hk.symm)
    rw [conversation, TReadingClientBase.handle_last hp he]
    rfl
  | succ k ih =>
    intro i src p fuel hk hat hp hfuel
    obtain ⟨fuel, rfl⟩ := Nat.exists_eq_succ_of_ne_zero (Nat.ne_of_gt (Nat.zero_lt_of_lt hfuel))
    have he : src.eof = false := by
      rw [← Bool.not_eq_true, hc.eof hat]
      omega
    obtain ⟨hdata, hat'⟩ := hc.next hat (by omega)
    have hid : UInt16.ofNat i + 1 = UInt16.ofNat (i + 1) := (UInt16.ofNat_add i 1).symm
    have hrest := @ih (i + 1) src.nextBlock.2 (.ack ⟨UInt16.ofNat (i + 1)⟩) fuel (by omega) hat' rfl
      (by omega)
    rw [conversation, TReadingClientBase.handle_next hp he]
    simp only [hid, hdata, hrest, Option.map_some]
    rfl

/-- `TOctetReadingClient`. -/
theorem octet_cursor (F : Bytes) : BlockCursor F (F.length / 512 + 1) fun i src =>
    ∃ from_, src = .octet from_ ∧ IStream.At 512 F i from_ where
  eof := by
    rintro i _ ⟨from_, rfl, hat⟩
    rw [Source.eof, hat.eofbit, lt_mul_iff_div_lt (by decide)]
    exact Nat.succ_le_iff.symm
  next := by
    rintro i _ ⟨from_, rfl, hat⟩ hi
    have hle : 512 * i ≤ F.length := by
      rw [← Nat.not_lt, lt_mul_iff_div_lt (by decide)]
      omega
    obtain ⟨hdata, hat'⟩ := hat.read hle
    exact ⟨hdata, _, rfl, hat'⟩

/-- `TNetAsciiReadingClient`. -/
theorem netAscii_cursor (text : Bytes) : BlockCursor text ((text.length + 511) / 512) fun i src =>
    src = .netAscii text (min (512 * i) text.length) where
  eof := by
    rintro i _ rfl
    simp only [Source.eof, beq_iff_eq]
    omega
  next := by
    rintro i _ rfl hi
    have hmin : min (512 * i) text.length = 512 * i := by omega
    have hend : min (min (512 * i) text.length + 512) text.length = min (512 * (i + 1)) text.length := by
      omega
    simp only [Source.nextBlock, hend]
    refine ⟨?_, trivial⟩
    rw [hmin, block]
    rcases Nat.le_total (512 * (i + 1)) text.length with h | h
    · rw [Nat.min_eq_left h, show 512 * (i + 1) - 512 * i = 512 by omega]
    · rw [Nat.min_eq_right h, List.take_of_length_le (Nat.le_of_eq List.length_drop),
        List.take_of_length_le (by rw [List.length_drop]; omega)]

/-! ## Which of them split the text -/

/-- The first `n` blocks as they are sent. -/
def sentBlocks (text : Bytes) (n : Nat) : List TDataPacket := (List.range n).map (dataPacket text)

theorem sentBlocks_succ (n : Nat) :
    sentBlocks text (n + 1) = sentBlocks text n ++ [dataPacket text n] := by
  rw [sentBlocks, List.range_succ, List.map_append]
  rfl

theorem sentBlocks_data (n : Nat) : (sentBlocks text n).map (·.data) = blocks 512 text n := by
  rw [sentBlocks, List.map_map]
  rfl

/-- All blocks are needed, with the short one at the end. -/
theorem splits_sentBlocks_iff (n : Nat) :
    Splits text (sentBlocks text n) ↔ n = text.length / 512 + 1 := by
  cases n with
  | zero =>
    refine iff_of_false (fun h => ?_) (by omega)
    obtain ⟨d, hd, -⟩ := h.last
    cases hd
  | succ n =>
    have hshort : (dataPacket text n).data.length < 512 ↔ text.length / 512 < n + 1 := by
      rw [← lt_mul_iff_div_lt (by decide)]
      exact length_block_lt (by decide)
    have hlast : (sentBlocks text (n + 1)).getLast? = some (dataPacket text n) := by
      rw [sentBlocks_succ, List.getLast?_concat]
    have hinit : (sentBlocks text (n + 1)).dropLast = sentBlocks text n := by
      rw [sentBlocks_succ, List.dropLast_concat]
    constructor
    · intro h
      obtain ⟨d, hd, hlt⟩ := h.last
      rw [hlast] at hd
      obtain rfl := Option.some.inj hd
      have hupper := hshort.mp hlt
      cases n with
      | zero => omega
      | succ n =>
        have hfull := h.full (dataPacket text n) (by rw [hinit, sentBlocks_succ]; simp)
        have := (length_block_eq (by decide)).mp hfull
        omega
    · intro h
      refine ⟨?_, ?_, fun d hd => ?_, _, hlast, hshort.mpr (by omega)⟩
      · rw [sentBlocks, List.map_map, List.length_map, List.length_range]
        rfl
      · rw [List.flatMap_def, sentBlocks_data, flatten_blocks, take_of_short (by omega)]
      · rw [hinit] at hd
        have hmem := List.mem_map_of_mem (f := fun d : TDataPacket => d.data) hd
        rw [sentBlocks_data] at hmem
        exact length_of_mem_blocks (by omega) _ hmem

/-- The conversation of a fresh session is over with enough fuel. -/
theorem splitsFile_of_cursor {files : Files} {filename F : Bytes} (mode : ETransferMode) {src : Source}
    (hc : BlockCursor (wireText mode F) last at_) (hat : at_ 0 src)
    (hfile : (files filename).isSome = true)
    (hnew : ∀ opened, newClient files opened ⟨.read, filename, mode⟩ = some (.reading ⟨0, src⟩)) :
    SplitsFile files filename F mode ↔ last = (wireText mode F).length / 512 + 1 := by
  have hvisit : (TReadingClientBase.visitor files).visit (.request ⟨.read, filename, mode⟩) =
      .got (UInt16.ofNat 0) := by
    simp only [TReadingClientBase.visitor, Expecting.visit, hfile, if_true]
    rfl
  have hrun (fuel : Nat) (hfuel : last < fuel) : conversation files fuel ⟨0, src⟩
      (.request ⟨.read, filename, mode⟩) = some (sentBlocks (wireText mode F) last) := by
    rw [sentBlocks, List.range_eq_range']
    exact conversation_eq hc files last (Nat.zero_add last) hat hvisit hfuel
  rw [← splits_sentBlocks_iff]
  constructor
  · intro h
    obtain ⟨c, ds, hc', ⟨N, hN⟩, hs⟩ := h true
    rw [hnew, Option.some.injEq, Role.reading.injEq] at hc'
    have he := hN (N + last + 1) (by omega)
    rw [← hc', hrun _ (by omega), Option.some.injEq] at he
    rwa [he]
  · exact fun hs opened => ⟨_, _, hnew opened, ⟨last + 1, hrun⟩, hs⟩

/-- **How a file is split.** For every file, and in both modes: the blocks are
numbered in order, carry the text and end in a short one, unless the mode is
NetASCII and the text is a whole number of blocks long. -/
theorem splitsFile_iff {files : Files} {filename F : Bytes}
    (hF : files filename = some (.ofBytes F)) (mode : ETransferMode) :
    SplitsFile files filename F mode ↔ mode = .octet ∨ (toNetASCII F).length % 512 ≠ 0 := by
  have hfile : (files filename).isSome = true := by rw [hF]; rfl
  cases mode with
  | octet =>
    have hnew (opened : Bool) : newClient files opened ⟨.read, filename, .octet⟩ =
        some (.reading ⟨0, .octet (.ofBytes F)⟩) := by
      simp only [newClient, hF, Option.getD_some]
    rw [splitsFile_of_cursor .octet (octet_cursor F) ⟨_, rfl, .start⟩ hfile hnew]
    exact iff_of_true rfl (.inl rfl)
  | netascii =>
    have hnew (opened : Bool) : newClient files opened ⟨.read, filename, .netascii⟩ =
        some (.reading ⟨0, .netAscii (toNetASCII F) 0⟩) := by
      simp only [newClient, hF, Option.getD_some, IStream.contents, IStream.ofBytes, Option.map_some]
    rw [splitsFile_of_cursor .netascii (netAscii_cursor (toNetASCII F)) (by simp) hfile hnew]
    simp only [wireText, reduceCtorEq, false_or]
    omega

theorem splitsFile_iff_hi :
    SplitsFile (fun _ => some (.ofBytes (ascii "hi"))) (ascii "f") (ascii "hi") .netascii :=
  (splitsFile_iff rfl .netascii).mpr (.inr (by decide))

/-- No packet at all is sent for an empty file. -/
theorem empty_netAscii_lost : ¬ ∀ (files : Files) (filename F : Bytes) (mode : ETransferMode),
    files filename = some (.ofBytes F) → SplitsFile files filename F mode := by
  intro h
  obtain ⟨c, ds, hc, ⟨N, hN⟩, hs⟩ := h (fun _ => some (.ofBytes [])) [] [] .netascii rfl true
  obtain rfl : (⟨0, .netAscii [] 0⟩ : TReadingClientBase) = c := Role.reading.inj (Option.some.inj hc)
  have he := hN (N + 1) (by omega)
  obtain ⟨d, hd, -⟩ := hs.last
  rw [conversation] at he
  cases he
  cases hd

end NetworksLab.L3.Tftp
