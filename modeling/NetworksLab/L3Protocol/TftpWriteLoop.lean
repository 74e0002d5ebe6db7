import NetworksLab.L3Protocol.TftpClient

/-!
# The block loop of an upload (`udp/lib/Client.cpp`)

`TClient::Write` leaves its loop at `eof()`, and does not look at the other
flags of the stream. A read that fails sets those: a file that could not be
opened, or one whose reads fail, is sent as blocks without an end.

Results:
* `round_advances`: what a round of the loop makes smaller.
* `stops_iff`: the streams on which the loop ends.
-/
namespace NetworksLab.L3.Tftp
open NetworksLab.L1.Packet NetworksLab.L2.Stream

/-- Datagrams in turn, as long as `Write` runs. -/
def Write.receives : Write → List TReceiveResult → Write
  | s, [] => s
  | s, packet :: packets => if s.status = .running then (s.receive packet).1.receives packets else s

/-- A peer that acknowledges every DATA packet: in each round some datagrams
come, and then an ACK for the packet that was outstanding. -/
structure AckingPeer where
  before : Nat → List TReceiveResult
  src : Nat → Endpoint

/-- One round, and the first rounds. -/
def Write.round (s : Write) (peer : AckingPeer) (n : Nat) : Write :=
  s.receives (peer.before n ++ [⟨peer.src n, .ok (.ack ⟨s.blockID⟩)⟩])

def Write.rounds (s : Write) (peer : AckingPeer) : Nat → Write
  | 0 => s
  | n + 1 => (s.rounds peer n).round peer n

/-- `Write` with its request acknowledged: the first block has been sent. -/
def Write.begun (port : UInt16) (filename : Bytes) (data : IStream) (server : Endpoint) : Write :=
  ((start port filename data).1.receive ⟨server, .ok (.ack ⟨0⟩)⟩).1

/-- Against every such peer, `Write` returns or throws. -/
def Stops (data : IStream) : Prop :=
  ∀ (port : UInt16) (filename : Bytes) (server : Endpoint) (peer : AckingPeer),
    ∃ n, ((Write.begun port filename data server).rounds peer n).status ≠ .running

/-! ## Streams that end -/

/-- Reads come to the end of the file. -/
def Ends (s : IStream) : Prop := s.eofbit = true ∨ (s.good = true ∧ s.ending = .eof)

/-- The blocks that are still to be read. -/
def blocksLeft (s : IStream) : Nat := if s.eofbit then 0 else s.rest.length / 512 + 1

theorem ends_good {s : IStream} (h : Ends s) (he : s.eofbit = false) : s.good = true ∧ s.ending = .eof := by
  rcases h with h | h
  · rw [he] at h
    cases h
  · exact h

/-- A read of a stream that ends. -/
theorem ends_read {s : IStream} (h : Ends s) :
    Ends (s.read 512).2 ∧ (s.eofbit = false → blocksLeft (s.read 512).2 < blocksLeft s) := by
  cases he : s.eofbit with
  | true =>
    have hgood : s.good = false := by simp [IStream.good, he]
    rw [IStream.read_of_not_good hgood]
    exact ⟨.inl he, fun h => Bool.noConfusion h⟩
  | false =>
    obtain ⟨hgood, heof⟩ := ends_good h he
    by_cases hlen : 512 ≤ s.rest.length
    · rw [IStream.read_of_le hgood hlen]
      refine ⟨.inr ⟨hgood, heof⟩, fun _ => ?_⟩
      simp only [blocksLeft, he, Bool.false_eq_true, if_false, List.length_drop]
      omega
    · rw [IStream.read_eof hgood (Nat.not_le.mp hlen) heof]
      refine ⟨.inl rfl, fun _ => ?_⟩
      simp only [blocksLeft, he, if_true, Bool.false_eq_true, if_false]
      omega

theorem eofbit_of_not_ends {s : IStream} (h : ¬ Ends s) : s.eofbit = false :=
  eq_false_of_ne_true fun he => h (.inl he)

/-- A stream that does not end stays so: the flags that a failed read sets are
not the one that is looked at. -/
theorem not_ends_read {s : IStream} (h : ¬ Ends s) : ¬ Ends (s.read 512).2 := by
  cases hgood : s.good with
  | false =>
    rw [IStream.read_of_not_good hgood]
    rintro (heof | ⟨hgood', -⟩)
    · exact h (.inl heof)
    · simp [IStream.good] at hgood'
  | true =>
    have hfault : s.ending = .fault := by
      cases hend : s.ending with
      | eof => exact absurd (.inr ⟨hgood, hend⟩) h
      | fault => rfl
    by_cases hlen : 512 ≤ s.rest.length
    · rw [IStream.read_of_le hgood hlen]
      exact h
    · rw [IStream.read_fault hgood (Nat.not_le.mp hlen) hfault]
      rintro (heof | ⟨hgood', -⟩)
      · exact h (.inl heof)
      · simp [IStream.good] at hgood'

/-! ## One round -/

/-- `Write` in its loop, on a stream that ends. -/
structure Write.Looping (s : Write) : Prop where
  phase : s.phase = .block
  ends : Ends s.data
  end_ : s.end_ = s.data.eofbit

/-- The first block, which does not go to port 0. -/
theorem Write.begun_looping {data : IStream} (port : UInt16) (filename : Bytes) (server : Endpoint)
    (h : Ends data) : (begun port filename data server).status ≠ .running ∨
      (begun port filename data server).Looping := by
  have hbegun : begun port filename data server =
      (Write.loop ⟨.block, server.port, false, 1, data, .running⟩).1 := rfl
  rw [hbegun, loop, if_neg Bool.false_ne_true]
  dsimp only [sendTo]
  split
  · exact .inl Status.noConfusion
  · exact .inr ⟨rfl, (ends_read h).1, rfl⟩

/-- The rounds that are still to come. -/
def Write.left (s : Write) : Nat := blocksLeft s.data

/-- `Write` is over, or has fewer rounds to come than `s`. -/
def Write.Advanced (s s' : Write) : Prop :=
  s'.status ≠ .running ∨ (s'.Looping ∧ s'.left < s.left)

/-- The loop behind an acknowledged block: by whether that was the last one. -/
theorem Write.loop_advanced {s : Write} (h : s.Looping) (id : UInt16) :
    s.Advanced (Write.loop { s with blockID := id }).1 := by
  unfold loop
  by_cases he : s.end_ = true
  · rw [if_pos he]
    exact .inl (by simp)
  · rw [if_neg he]
    rw [h.end_] at he
    obtain ⟨hends, hlt⟩ := ends_read h.ends
    dsimp only [sendTo]
    split
    · exact .inl Status.noConfusion
    · exact .inr ⟨⟨h.phase, hends, rfl⟩, hlt (eq_false_of_ne_true he)⟩

theorem Write.receive_advanced {s : Write} (h : s.Looping) (packet : TReceiveResult) :
    (s.receive packet).1 = s ∨ s.Advanced (s.receive packet).1 := by
  obtain ⟨src, p⟩ := packet
  cases p with
  | error e =>
    obtain ⟨⟨message, hthrew⟩, -⟩ := s.receive_error src e
    exact .inr (.inl (by rw [hthrew]; exact Status.noConfusion))
  | ok p =>
    have hr := s.receive_cases src p
    generalize s.receive ⟨src, .ok p⟩ = r at hr ⊢
    cases hr with
    | stale => exact .inl rfl
    | threw hthrew => exact .inr (.inl (by rw [hthrew]; simp))
    | requestAck hphase => rw [h.phase] at hphase; cases hphase
    | blockAck => exact .inr (loop_advanced h _)

theorem Write.Advanced.receive {s t : Write} (h : s.Advanced t) (ht : t.status = .running)
    (packet : TReceiveResult) : s.Advanced (t.receive packet).1 := by
  rcases h with h | ⟨hloop, hlt⟩
  · exact absurd ht h
  · rcases receive_advanced hloop packet with he | h | ⟨hloop', hlt'⟩
    · rw [he]
      exact .inr ⟨hloop, hlt⟩
    · exact .inl h
    · exact .inr ⟨hloop', Nat.lt_trans hlt' hlt⟩

theorem Write.Advanced.receives {s : Write} : ∀ (packets : List TReceiveResult) {t : Write},
    s.Advanced t → s.Advanced (t.receives packets)
  | [], _, h => h
  | packet :: packets, t, h => by
    rw [Write.receives]
    split
    · rename_i ht
      exact Advanced.receives packets (h.receive ht packet)
    · exact h

/-- The datagrams in front of the ACK: by induction on them. -/
theorem Write.receives_ack_advanced {s : Write} (h : s.Looping) (hs : s.status = .running) (src : Endpoint) :
    ∀ packets : List TReceiveResult,
      s.Advanced (s.receives (packets ++ [⟨src, .ok (.ack ⟨s.blockID⟩)⟩]))
  | [] => by
    have hack : s.receive ⟨src, .ok (.ack ⟨s.blockID⟩)⟩ = Write.loop { s with blockID := s.blockID + 1 } := by
      simp only [receive, h.phase, receiveBlockAck, writePacketVisitor_got.mpr rfl, ne_eq,
        not_true_eq_false, if_false]
    rw [List.nil_append, Write.receives, if_pos hs, Write.receives, hack]
    exact loop_advanced h _
  | packet :: packets => by
    rw [List.cons_append, Write.receives, if_pos hs]
    rcases receive_advanced h packet with he | ha
    · rw [he]
      exact receives_ack_advanced h hs src packets
    · exact ha.receives _

/-- Step lemma. -/
theorem Write.round_advances {s : Write} (h : s.Looping) (hs : s.status = .running) (peer : AckingPeer)
    (n : Nat) : s.Advanced (s.round peer n) := receives_ack_advanced h hs (peer.src n) (peer.before n)

/-- Run lemma: by induction on a bound for the rounds to come. -/
theorem Write.rounds_end {s : Write} (peer : AckingPeer) : ∀ (k n : Nat),
    (s.rounds peer n).Looping → (s.rounds peer n).left < k → ∃ m, (s.rounds peer m).status ≠ .running
  | 0, _, _, hk => absurd hk (Nat.not_lt_zero _)
  | k + 1, n, h, hk => by
    by_cases hs : (s.rounds peer n).status = .running
    · rcases round_advances h hs peer n with hend | ⟨hloop, hlt⟩
      · exact ⟨n + 1, hend⟩
      · exact rounds_end peer k (n + 1) hloop (Nat.lt_of_lt_of_le hlt (Nat.le_of_lt_succ hk))
    · exact ⟨n, hs⟩

/-! ## Streams that do not end -/

/-- `Write` in its loop, on a stream that does not end. -/
structure Write.Endless (s : Write) : Prop where
  status : s.status = .running
  phase : s.phase = .block
  server : s.transferID ≠ 0
  more : s.end_ = false
  data : ¬ Ends s.data

/-- A peer that sends nothing but the acknowledgements. -/
def AckingPeer.plain : AckingPeer := ⟨fun _ => [], fun _ => ⟨0x7F000001, 69⟩⟩

theorem Write.Endless.round {s : Write} (h : s.Endless) (n : Nat) : (s.round .plain n).Endless := by
  have hloop : s.round .plain n = (Write.loop { s with blockID := s.blockID + 1 }).1 := by
    simp only [Write.round, AckingPeer.plain, List.nil_append, receives, h.status, if_true, receive, h.phase,
      receiveBlockAck, writePacketVisitor_got.mpr rfl, ne_eq, not_true_eq_false, if_false]
  have hread := not_ends_read h.data
  rw [hloop, Write.loop, if_neg (by simp [h.more])]
  dsimp only
  rw [sendTo_of_ne h.server]
  exact ⟨h.status, h.phase, h.server, eofbit_of_not_ends hread, hread⟩

theorem Write.Endless.rounds {s : Write} (h : s.Endless) : ∀ n, (s.rounds .plain n).Endless
  | 0 => h
  | n + 1 => (Endless.rounds h n).round n

theorem not_stops {data : IStream} (h : ¬ Ends data) : ¬ Stops data := by
  intro hstops
  have hread := not_ends_read h
  have hstart : (Write.begun 69 [] data ⟨0x7F000001, 69⟩).Endless :=
    ⟨rfl, rfl, (by decide : (69 : UInt16) ≠ 0), eofbit_of_not_ends hread, hread⟩
  obtain ⟨n, hn⟩ := hstops 69 [] ⟨0x7F000001, 69⟩ .plain
  exact hn (hstart.rounds n).status

/-! ## When the loop ends -/

/-- **When an upload ends.** For every stream, in any state: against every peer
that acknowledges each DATA packet `Write` returns or throws, exactly when
`eofbit` is set or the stream is good and its reads come to the end of the file. -/
theorem stops_iff (data : IStream) :
    Stops data ↔ data.eofbit = true ∨ (data.good = true ∧ data.ending = .eof) := by
  constructor
  · intro h
    by_contra hends
    exact not_stops hends h
  · intro hends port filename server peer
    rcases Write.begun_looping port filename server hends with hthrew | hstart
    · exact ⟨0, hthrew⟩
    · exact Write.rounds_end peer _ 0 hstart (Nat.lt_succ_self _)

/-- A file that could not be opened, and one whose first read fails. -/
theorem unopened_endless :
    ¬ Stops .unopened ∧ ¬ Stops { IStream.ofBytes [] with ending := .fault } :=
  ⟨not_stops (by simp [Ends, IStream.unopened, IStream.good]),
    not_stops (by simp [Ends, IStream.ofBytes])⟩

end NetworksLab.L3.Tftp
