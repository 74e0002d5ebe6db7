import NetworksLab.L3Protocol.TftpClient

/-!
# Datagrams from someone else (`udp/lib/Client.cpp`, `udp/lib/Server.cpp`)

RFC 1350 names a connection by the transfer IDs of its two sides, so a datagram
from another port has no business with it. `TClient::Read` drops it, as soon as
it has been parsed, and answers, which throws if it came from port 0;
`TClient::Write` and the sessions of the server do not look at where it is from.

Results:
* `ignores_foreign_iff`: which datagrams from another port leave a transfer of
  the client alone.
* `undisturbed_iff`: which datagrams leave a session of the server alone.
-/
namespace NetworksLab.L3.Tftp
open NetworksLab.L1.Packet NetworksLab.L2.Stream

theorem blockID_succ_ne (b : UInt16) : b + 1 ≠ b := by
  intro h
  have h1 : (1 : UInt16).toNat = 1 := rfl
  have := congrArg UInt16.toNat h
  rw [UInt16.toNat_add, h1] at this
  have := b.toNat_lt
  omega

/-! ## The client -/

/-- A datagram from `foreign` leaves the transfer as it is; an error packet may
be sent back. -/
structure Ignored {σ : Type} (s : σ) (foreign : UInt16) (r : σ × SendsTo) : Prop where
  state : r.1 = s
  sends : r.2 = [] ∨ ∃ e, r.2 = [(foreign, .error e)]

/-- An exception is a change of state. -/
theorem not_ignored_of_threw {σ : Type} (status : σ → Status) {s : σ} {foreign : UInt16}
    {r : σ × SendsTo} {message : Bytes} (hs : status s = .running) (hr : status r.1 = .threw message) :
    ¬ Ignored s foreign r := by
  intro h
  rw [h.state, hs] at hr
  cases hr

theorem Read.ignored_iff {s : Read} (hs : s.status = .running) (hport : s.serverPort ≠ 0)
    (packet : TReceiveResult) (hforeign : packet.transferID ≠ s.serverPort) :
    Ignored s packet.transferID (s.receive packet) ↔
      packet.transferID ≠ 0 ∧ ∃ p, packet.packet = .ok p := by
  cases hp : packet.packet with
  | error e =>
    refine iff_of_false ?_ (by rintro ⟨-, p, hp⟩; cases hp)
    obtain ⟨src, result⟩ := packet
    obtain rfl : result = .error e := hp
    obtain ⟨⟨_, hthrew⟩, -⟩ := s.receive_error src e
    exact not_ignored_of_threw Read.status hs (congrArg Read.status hthrew)
  | ok p =>
    have hdrop : s.serverPort ≠ 0 ∧ s.serverPort ≠ packet.transferID := ⟨hport, hforeign.symm⟩
    simp only [receive, hp, if_pos hdrop]
    by_cases h0 : packet.transferID = 0
    · refine iff_of_false ?_ fun h => h.1 h0
      rw [sendTo, if_pos h0]
      exact not_ignored_of_threw Read.status hs rfl
    · rw [sendTo_of_ne h0]
      exact iff_of_true ⟨rfl, .inr ⟨_, rfl⟩⟩ ⟨h0, p, rfl⟩

theorem Write.receive_ack {s : Write} (hphase : s.phase = .block) {packet : TReceiveResult} {id : UInt16}
    (hp : packet.packet = .ok (.ack ⟨id⟩)) :
    s.receive packet = if id ≠ s.blockID then (s, []) else Write.loop { s with blockID := s.blockID + 1 } := by
  simp only [receive, hphase, receiveBlockAck, hp, writePacketVisitor_got.mpr rfl]

/-- Whoever sent it. -/
theorem Write.receive_other {s : Write} (hphase : s.phase = .block) {packet : TReceiveResult}
    (hp : ∀ id, packet.packet ≠ .ok (.ack ⟨id⟩)) :
    ∃ message, (s.receive packet).1 = s.threw message := by
  simp only [receive, hphase, receiveBlockAck]
  split
  · exact threw_sendTo s.threw _ _ _ _
  · rename_i p hok
    split
    · exact ⟨_, rfl⟩
    · exact threw_sendTo s.threw _ _ _ _
    · rename_i id hid
      exact absurd (hok.trans (by rw [writePacketVisitor_got.mp hid])) (hp id)

theorem Write.ignored_iff {s : Write} (hs : s.status = .running) (hphase : s.phase = .block)
    (packet : TReceiveResult) : Ignored s packet.transferID (s.receive packet) ↔
      ∃ id, packet.packet = .ok (.ack ⟨id⟩) ∧ id ≠ s.blockID := by
  by_cases hack : ∃ id, packet.packet = .ok (.ack ⟨id⟩)
  · obtain ⟨id, hp⟩ := hack
    rw [receive_ack hphase hp, hp]
    by_cases hid : id = s.blockID
    · rw [if_neg (not_not.mpr hid)]
      refine iff_of_false (fun h => ?_) ?_
      · have := congrArg Write.blockID h.state
        rw [loop_blockID] at this
        exact blockID_succ_ne _ this
      · intro h
        obtain ⟨id', hp', hne⟩ := h
        cases hp'
        exact hne hid
    · rw [if_pos hid]
      exact iff_of_true ⟨rfl, .inl rfl⟩ ⟨id, rfl, hid⟩
  · rw [not_exists] at hack
    obtain ⟨message, hthrew⟩ := receive_other hphase hack
    refine iff_of_false (not_ignored_of_threw Write.status hs (congrArg Write.status hthrew)) ?_
    intro h
    obtain ⟨id, hp, -⟩ := h
    exact hack id hp

/-- The claim of RFC 1350 on the client: a transfer whose port is known ignores
all other ports. -/
def IgnoresForeign : Prop :=
  ∀ (src : Endpoint) (bytes : Bytes),
    (∀ s : Read, s.status = .running → s.serverPort ≠ 0 → src.port ≠ s.serverPort →
      Ignored s src.port (s.receive (TTransport.receive src bytes))) ∧
    ∀ s : Write, s.status = .running → s.phase = .block → src.port ≠ s.transferID →
      Ignored s src.port (s.receive (TTransport.receive src bytes))

/-- **Datagrams from another port.** They leave a download alone if and only if
they parse and that port is not 0, and an upload if and only if they are
acknowledgements of a block that is not the current one. -/
theorem ignores_foreign_iff (src : Endpoint) (bytes : Bytes) :
    (∀ s : Read, s.status = .running → s.serverPort ≠ 0 → src.port ≠ s.serverPort →
      (Ignored s src.port (s.receive (TTransport.receive src bytes)) ↔
        src.port ≠ 0 ∧ ∃ p, parsePacket (bytes.take 520) = .ok p)) ∧
    ∀ s : Write, s.status = .running → s.phase = .block → src.port ≠ s.transferID →
      (Ignored s src.port (s.receive (TTransport.receive src bytes)) ↔
        ∃ id, parsePacket (bytes.take 520) = .ok (.ack ⟨id⟩) ∧ id ≠ s.blockID) :=
  ⟨fun _ hs hport hforeign => Read.ignored_iff hs hport (TTransport.receive src bytes) hforeign,
    fun _ hs hphase _ => Write.ignored_iff hs hphase (TTransport.receive src bytes)⟩

/-- A download whose server is at port 2000. -/
def knownRead : Read := ⟨2000, false, 1, [], .running⟩

/-- An upload of two blocks to port 2000, the first one sent. -/
def knownWrite : Write :=
  ⟨.block, 2000, false, 1, ((IStream.ofBytes (List.replicate 600 0)).read 512).2, .running⟩

def strangerPort : Endpoint := ⟨0x7f000001, 3000⟩

/-- One byte from another port ends a download, and so does any packet from port 0; an
acknowledgement from there takes an upload on. -/
theorem foreign_heeded :
    ¬ Ignored knownRead strangerPort.port (knownRead.receive (TTransport.receive strangerPort [0])) ∧
    ¬ Ignored knownRead 0 (knownRead.receive (TTransport.receive ⟨0x7f000001, 0⟩ [0, 4, 0, 1])) ∧
    ¬ Ignored knownWrite strangerPort.port
      (knownWrite.receive (TTransport.receive strangerPort [0, 4, 0, 1])) ∧ ¬ IgnoresForeign := by
  have hread : ¬ Ignored knownRead strangerPort.port
      (knownRead.receive (TTransport.receive strangerPort [0])) := fun h =>
    absurd (congrArg Read.status h.state) (by decide)
  have hzero : ¬ Ignored knownRead 0
      (knownRead.receive (TTransport.receive ⟨0x7f000001, 0⟩ [0, 4, 0, 1])) := fun h =>
    absurd (congrArg Read.status h.state) (by decide)
  have hwrite : ¬ Ignored knownWrite strangerPort.port
      (knownWrite.receive (TTransport.receive strangerPort [0, 4, 0, 1])) := fun h =>
    absurd (congrArg Write.blockID h.state) (by decide)
  exact ⟨hread, hzero, hwrite, fun h => hread ((h strangerPort [0]).1 knownRead rfl (by decide) (by decide))⟩

/-- ACK 7 from a stranger, and the same from port 0. -/
theorem ignores_foreign_iff_stranger :
    Ignored knownRead strangerPort.port
      (knownRead.receive (TTransport.receive strangerPort [0, 4, 0, 7])) ∧
    ¬ Ignored knownRead 0 (knownRead.receive (TTransport.receive ⟨0x7f000001, 0⟩ [0, 4, 0, 7])) ∧
    Ignored knownWrite strangerPort.port
      (knownWrite.receive (TTransport.receive strangerPort [0, 4, 0, 7])) := by
  have hparse : parsePacket ([0, 4, 0, 7].take 520) = .ok (.ack ⟨7⟩) := by decide
  refine ⟨?_, fun h => ?_, ?_⟩
  · exact ((ignores_foreign_iff strangerPort [0, 4, 0, 7]).1 knownRead rfl (by decide) (by decide)).mpr
      ⟨by decide, _, hparse⟩
  · exact (((ignores_foreign_iff ⟨0x7f000001, 0⟩ [0, 4, 0, 7]).1 knownRead rfl (by decide) (by decide)).mp h).1 rfl
  · exact ((ignores_foreign_iff strangerPort [0, 4, 0, 7]).2 knownWrite rfl rfl (by decide)).mpr
      ⟨7, hparse, by decide⟩

/-! ## The server -/

/-- A session is as it was, goes on, and has sent nothing to its peer. -/
structure Undisturbed (c : IClient) (r : IClient × Sends × Bool) : Prop where
  session : r.1 = c
  alive : r.2.2 = true
  sends : ∀ q ∈ r.2.1, q.1 ≠ c.address

/-- A packet of a kind that the session expects, for another block. -/
def Stale (files : Files) : Role → TPacket → Prop
  | .reading c, .ack k => k.blockID ≠ c.blockID
  | .reading c, .request r => (files r.filename).isSome = true ∧ c.blockID ≠ 0
  | .writing c, .data d => d.blockID ≠ c.blockID
  | .writing c, .request _ => c.blockID ≠ 0
  | _, _ => False

theorem TReadingClientBase.handle_stale_iff (files : Files) (c : TReadingClientBase) (p : TPacket) :
    c.handle files p = ⟨c, [], true⟩ ↔ Stale files (.reading c) p := by
  have hgot {id : UInt16} (h : (visitor files).visit p = .got id) :
      c.handle files p = ⟨c, [], true⟩ ↔ id ≠ c.blockID := by
    simp only [handle, h]
    constructor
    · intro heq hid
      rw [if_neg (not_not.mpr hid.symm)] at heq
      split at heq
      · exact blockID_succ_ne _ (congrArg (fun h => h.client.blockID) heq)
      · exact blockID_succ_ne _ (congrArg (fun h => h.client.blockID) heq)
    · intro hne
      rw [if_pos hne.symm]
  have hnot {e : TErrorPacket} (h : (visitor files).visit p = .answer e) : c.handle files p ≠ ⟨c, [], true⟩ := by
    simp only [handle, h]
    intro heq
    cases heq
  cases p with
  | request r =>
    cases hf : (files r.filename).isSome with
    | true =>
      have h0 : (visitor files).visit (.request r) = .got 0 := by simp [visitor, Expecting.visit, hf]
      simp only [hgot h0, Stale, hf, true_and, ne_comm]
    | false =>
      refine iff_of_false (hnot (by simp [visitor, Expecting.visit, hf]; rfl)) ?_
      simp [Stale, hf]
  | data d => exact iff_of_false (hnot rfl) id
  | ack k => exact hgot rfl
  | error e =>
    refine iff_of_false (fun h => ?_) id
    simp only [handle, Expecting.visit] at h
    cases h

theorem TWritingClientBase.handle_stale_iff (files : Files) (disk : Disk) (c : TWritingClientBase)
    (p : TPacket) : c.handle disk p = ⟨c, [], true⟩ ↔ Stale files (.writing c) p := by
  have hgot {id : UInt16} {data : Bytes} (h : visitor.visit p = .got (id, data)) :
      c.handle disk p = ⟨c, [], true⟩ ↔ id ≠ c.blockID := by
    simp only [handle, h]
    constructor
    · intro heq hid
      rw [if_neg (not_not.mpr hid.symm)] at heq
      exact blockID_succ_ne _ (congrArg (fun h => h.client.blockID) heq)
    · intro hne
      rw [if_pos hne.symm]
  cases p with
  | request r => rw [hgot rfl, Stale, ne_comm]
  | data d => exact hgot rfl
  | ack k =>
    refine iff_of_false (fun h => ?_) id
    simp only [handle, visitor, Expecting.visit, illegal] at h
    cases h
  | error e =>
    refine iff_of_false (fun h => ?_) id
    simp only [handle, Expecting.visit] at h
    cases h

theorem Role.handle_stale_iff (files : Files) (disk : Disk) (role : Role) (p : TPacket) :
    role.handle files disk p = ⟨role, [], true⟩ ↔ Stale files role p := by
  cases role with
  | reading c =>
    rw [← c.handle_stale_iff]
    constructor
    · intro h
      simp only [handle, Handled.mk.injEq, Role.reading.injEq] at h
      exact Handled.ext h.1 h.2.1 h.2.2
    · intro h
      simp only [handle, h]
  | writing c =>
    rw [← c.handle_stale_iff files disk]
    constructor
    · intro h
      simp only [handle, Handled.mk.injEq, Role.writing.injEq] at h
      exact Handled.ext h.1 h.2.1 h.2.2
    · intro h
      simp only [handle, h]

/-- A session sends what it sends to its peer, whoever it has heard. -/
theorem IClient.undisturbed_ok (files : Files) (disk : Disk) (c : IClient) (src : Endpoint) (p : TPacket) :
    Undisturbed c (c.handlePacket files disk ⟨src, .ok p⟩) ↔
      c.role.handle files disk p = ⟨c.role, [], true⟩ := by
  simp only [handlePacket]
  constructor
  · intro h
    have hrole : (c.role.handle files disk p).client = c.role := congrArg IClient.role h.session
    have halive : (c.role.handle files disk p).more = true := h.alive
    have hsends : (c.role.handle files disk p).sends = [] := by
      rw [List.eq_nil_iff_forall_not_mem]
      intro q hq
      exact h.sends (c.address, q) (List.mem_map_of_mem hq) rfl
    exact Handled.ext hrole hsends halive
  · intro h
    rw [h]
    exact ⟨rfl, rfl, by simp⟩

/-- RFC 1350 on the server: only its peer drives a session. -/
def OwnPeerOnly : Prop :=
  ∀ (files : Files) (disk : Disk) (c : IClient) (src : Endpoint) (bytes : Bytes), src ≠ c.address →
    Undisturbed c (c.handlePacket files disk (TTransport.receive src bytes))

/-- **Datagrams at a session's port.** Wherever it is from, a datagram leaves the
session alone if and only if it parses as a packet of a kind that the session
expects, for another block than the one that is due. -/
theorem undisturbed_iff (files : Files) (disk : Disk) (c : IClient) (src : Endpoint) (bytes : Bytes) :
    Undisturbed c (c.handlePacket files disk (TTransport.receive src bytes)) ↔
      ∃ p, parsePacket (bytes.take 520) = .ok p ∧ Stale files c.role p := by
  rw [TTransport.receive]
  cases parsePacket (bytes.take 520) with
  | error e =>
    refine iff_of_false (fun h => ?_) (by rintro ⟨p, hp, -⟩; cases hp)
    have := h.alive
    cases this
  | ok p =>
    rw [c.undisturbed_ok, Role.handle_stale_iff]
    constructor
    · intro h
      exact ⟨p, rfl, h⟩
    · intro hex
      obtain ⟨q, hq, h⟩ := hex
      cases hq
      exact h

/-- A session that has sent the only block of a file. -/
def hiSession : IClient := ⟨⟨0x7f000001, 5000⟩, 1069, .reading ⟨1, .octet ⟨[], .eof, true, true, false⟩⟩⟩

/-- An acknowledgement from a stranger ends it. -/
theorem stranger_heeded : ¬ OwnPeerOnly := by
  intro h
  have := (h (fun _ => none) .stores hiSession strangerPort [0, 4, 0, 1] (by decide)).alive
  exact absurd this (by decide)

end NetworksLab.L3.Tftp
