import NetworksLab.Core.Coded
import NetworksLab.L1Encoding.TextFields
import NetworksLab.L5Concurrency.TftpNet

/-!
# A TFTP client and the server, over bytes (`udp/lib/Transport.cpp`)

The processes of `TftpNet` with datagrams as they travel: `Send` writes a packet
with `ToBytes`, and `Receive` reads what fits its buffer with `ParsePacket`. A
packet `arrives` as the one that is read. DATA and ACK packets keep the low half of
each byte of their numbers, so 16 is the first number that arrives as another one.

Results:
* `carries`: over bytes the parties do what they do with the packets as these
  arrive.
* `arrives_data`, `arrives_ack`, `arrives_error`, `arrives_named`: how each kind of
  packet arrives.
-/
namespace NetworksLab.L5.TftpNet
open NetworksLab.L1 NetworksLab.L1.Packet NetworksLab.L1.NetAscii NetworksLab.L1.TextFields
open NetworksLab.L2.Stream NetworksLab.L3.Tftp

structure RawDatagram where
  src : Endpoint
  dst : Endpoint
  bytes : Bytes
  deriving DecidableEq, Repr

/-- mirrors udp/lib/Transport.cpp:166-184 -/
def Datagram.send (d : Datagram) : RawDatagram := ⟨d.src, d.dst, d.packet.toBytes⟩

def RawDatagram.route (d : RawDatagram) : Endpoint × Endpoint := (d.src, d.dst)

/-- `Receive` on the socket that the datagram has come to. -/
def RawDatagram.receive (d : RawDatagram) : TReceiveResult := TTransport.receive d.src d.bytes

variable {σ : Type}

def Session.receiveRaw (S : Setup) (disk : Disk) (d : RawDatagram) (s : Session) :
    Session × List RawDatagram :=
  let h := s.client.handlePacket S.files disk d.receive
  (⟨h.1, h.2.2⟩, (sendFrom ⟨S.host, s.client.port⟩ h.2.1).map Datagram.send)

def receiveRawSession (S : Setup) (disk : Disk) (d : RawDatagram) :
    List Session → List Session × List RawDatagram
  | [] => ([], [])
  | s :: ss =>
    if s.Listens S d.dst then
      let r := s.receiveRaw S disk d
      (r.1 :: ss, r.2)
    else
      let r := receiveRawSession S disk d ss
      (s :: r.1, r.2)

/-- mirrors udp/lib/Server.cpp:413-418 -/
def receiveRawRequest (S : Setup) (p : Parties σ) (d : RawDatagram) (a : Arrival) :
    Option (Parties σ × List RawDatagram) :=
  match acceptClient S.files a.io a.port d.receive with
  | .refused answer => some (p, (sendFrom S.main answer).map Datagram.send)
  | .opened client sends more =>
    if S.Free p a.port then
      some ({ p with sessions := p.sessions ++ [⟨client, more⟩] },
        (sendFrom ⟨S.host, a.port⟩ sends).map Datagram.send)
    else none
  | .threw => none

def receiveRaw (S : Setup) (T : Transfer σ) (p : Parties σ) (d : RawDatagram) (a : Arrival) :
    Option (Parties σ × List RawDatagram) :=
  if d.dst = S.me then
    if T.status p.client = .running then
      let r := T.receive p.client d.receive
      some ({ p with client := r.1 }, (S.fromClient r.2).map Datagram.send)
    else some (p, [])
  else if d.dst = S.main then receiveRawRequest S p d a
  else
    let r := receiveRawSession S a.io.disk d p.sessions
    some ({ p with sessions := r.1 }, r.2)

def rawProcess (S : Setup) (T : Transfer σ) : Process (Parties σ) RawDatagram Arrival Timeout :=
  ⟨receiveRaw S T, fun p t => (timeout T p t).map (Process.encoded Datagram.send)⟩

/-! ## Packets as they arrive -/

/-- The packet that is read of what was sent, if one is. -/
def Datagram.arrives (d : Datagram) : Datagram :=
  match d.send.receive.packet with
  | .ok p => { d with packet := p }
  | .error _ => d

def Datagram.Readable (d : Datagram) : Prop := ∃ p, d.send.receive.packet = .ok p

theorem Datagram.Readable.receive {d : Datagram} (h : d.Readable) :
    d.send.receive = ⟨d.arrives.src, .ok d.arrives.packet⟩ := by
  obtain ⟨p, hp⟩ := h
  have hsrc : d.send.receive.src = d.src := rfl
  have harr : d.arrives = { d with packet := p } := by simp only [arrives, hp]
  rw [harr, ← hp, ← hsrc]

@[simp] theorem Datagram.arrives_dst (d : Datagram) : d.arrives.dst = d.dst := by
  unfold arrives
  split <;> rfl

theorem receiveRawSession_send {S : Setup} {disk : Disk} {d : Datagram} (h : d.Readable) :
    ∀ ss : List Session, receiveRawSession S disk d.send ss =
      Process.encoded Datagram.send (receiveSession S disk d.arrives ss)
  | [] => rfl
  | s :: ss => by
    have hdst : d.arrives.dst = d.send.dst := d.arrives_dst
    simp only [receiveRawSession, receiveSession, Session.receiveRaw, Session.receive, hdst, h.receive,
      receiveRawSession_send h ss]
    split <;> rfl

theorem receiveRaw_send {S : Setup} {T : Transfer σ} {p : Parties σ} {d : Datagram} (h : d.Readable)
    (a : Arrival) :
    receiveRaw S T p d.send a = (receive S T p d.arrives a).map (Process.encoded Datagram.send) := by
  have hdst : d.arrives.dst = d.send.dst := d.arrives_dst
  unfold receiveRaw receive
  simp only [hdst, h.receive]
  split
  · split <;> rfl
  · split
    · unfold receiveRawRequest receiveRequest
      simp only [h.receive]
      cases acceptClient S.files a.io a.port ⟨d.arrives.src, .ok d.arrives.packet⟩ with
      | refused => rfl
      | threw => rfl
      | opened =>
        dsimp only
        split <;> rfl
    · rw [receiveRawSession_send h]
      rfl

/-- What can be read is handled as it arrives. -/
theorem carries (S : Setup) (T : Transfer σ) {N : Parties σ → Datagram → Prop}
    (hN : ∀ {p d}, N p d → d.Readable) :
    (process S T).Carries (rawProcess S T) Datagram.send Datagram.arrives N where
  receive a hd := receiveRaw_send (hN hd) a
  act _ _ := rfl

/-! ## Packet by packet -/

theorem Datagram.arrives_eq {d : Datagram} {p : TPacket} (h : d.send.receive.packet = .ok p) :
    d.arrives = { d with packet := p } := by
  simp only [arrives, h]

variable (src dst : Endpoint)

/-- A block fits the buffer. -/
theorem arrives_data (id : UInt16) (data : Bytes) (h : data.length ≤ 512) :
    (Datagram.mk src dst (.data ⟨id, data⟩)).send.receive.packet = .ok (.data ⟨received id, data⟩) := by
  have hlen : (TDataPacket.toBytes ⟨id, data⟩).length ≤ 520 := by
    simp only [TDataPacket.toBytes, appendIntegral_eq, List.length_append, List.length_cons, List.length_nil]
    omega
  simp only [RawDatagram.receive, Datagram.send, TTransport.receive, TPacket.toBytes,
    List.take_of_length_le hlen, parsePacket_dataBytes]

theorem arrives_ack (id : UInt16) :
    (Datagram.mk src dst (.ack ⟨id⟩)).send.receive.packet = .ok (.ack ⟨received id⟩) := by
  have hlen : (TAcknowledgePacket.toBytes ⟨id⟩).length ≤ 520 := by
    simp only [TAcknowledgePacket.toBytes, appendIntegral_eq, List.length_append, List.length_cons, List.length_nil]
    omega
  simp only [RawDatagram.receive, Datagram.send, TTransport.receive, TPacket.toBytes,
    List.take_of_length_le hlen, parsePacket_ackBytes]

/-- An error packet arrives as one, maybe with another message. -/
theorem arrives_error (e : TErrorPacket) :
    ∃ e', (Datagram.mk src dst (.error e)).send.receive.packet = .ok (.error e') := by
  have hbytes : (TErrorPacket.toBytes e).take 520 = 0 :: 5 :: UInt8.ofNat (e.type.toNat / 256 % 16) ::
      UInt8.ofNat (e.type.toNat % 16) :: (toNetASCII e.message ++ [NUL]).take 516 := by
    simp only [TErrorPacket.toBytes, appendIntegral_eq, EOpcode.code, List.nil_append, List.cons_append,
      List.take_succ_cons]
    rfl
  simp only [RawDatagram.receive, Datagram.send, TTransport.receive, TPacket.toBytes, hbytes, parsePacket_cons]
  rw [(ofCode_joinBytes (o := .error)).mpr (by decide)]
  exact ⟨_, WireFormat.parseError_two⟩

/-- A name that a request holds. -/
structure Named (filename : Bytes) : Prop where
  nul : NUL ∉ filename
  cr : CR ∉ filename
  short : wireLength filename ≤ 511

theorem f_named : Named (ascii "f") := by constructor <;> decide

theorem arrives_named {filename : Bytes} (h : Named filename) (type : RequestType) :
    (Datagram.mk src dst (.request ⟨type, filename, .octet⟩)).send.receive.packet =
      .ok (.request ⟨type, filename, .octet⟩) := by
  have hshort := h.short
  have hlen : (TRequestPacket.toBytes ⟨type, filename, .octet⟩).length ≤ 520 := by
    have hmode : (transferMode .octet).length = 5 := rfl
    simp only [TRequestPacket.toBytes, appendIntegral_eq, List.length_append, List.length_cons, List.length_nil,
      length_toNetASCII h.cr, hmode]
    omega
  have hround := (request_roundtrip_iff (p := ⟨type, filename, .octet⟩) h.nul).mpr
    ⟨h.cr, Nat.lt_of_le_of_lt hshort (by decide)⟩
  simp only [RawDatagram.receive, Datagram.send, TTransport.receive, TPacket.toBytes,
    List.take_of_length_le hlen]
  exact hround

/-- An error packet whose message goes through. -/
structure Plain (e : TErrorPacket) : Prop where
  type : e.type.toNat ≤ 7
  nul : NUL ∉ e.message
  cr : CR ∉ e.message
  nonempty : e.message ≠ []
  short : wireLength e.message ≤ 515

theorem arrives_plain {e : TErrorPacket} (h : Plain e) :
    (Datagram.mk src dst (.error e)).send.receive.packet = .ok (.error e) := by
  have htype := h.type
  have hshort := h.short
  have hlen : (TErrorPacket.toBytes e).length ≤ 520 := by
    simp only [TErrorPacket.toBytes, appendIntegral_eq, List.length_append, List.length_cons, List.length_nil,
      length_toNetASCII h.cr]
    omega
  have hnibbles : LowNibbles e.type := ⟨by omega, by omega⟩
  have hbytes := parsePacket_errorBytes hnibbles e.message
  rw [(field_plain h.cr h.nul []).1, (fromNetASCII_plain_iff h.cr).mpr (Nat.lt_of_le_of_lt hshort (by decide)),
    TErrorPacket.make, if_neg h.nonempty] at hbytes
  simp only [RawDatagram.receive, Datagram.send, TTransport.receive, TPacket.toBytes,
    List.take_of_length_le hlen]
  exact hbytes

/-- Only a DATA packet arrives as one; what does not fit the buffer is lost. -/
theorem data_arrives {p : TPacket} {d : TDataPacket} (h : parsePacket (p.toBytes.take 520) = .ok (.data d)) :
    ∃ b, p = .data b ∧ d = ⟨received b.blockID, b.data.take 516⟩ := by
  cases p with
  | request q =>
    obtain ⟨c, c', s, hbytes, hcode⟩ : ∃ c c' s, (TRequestPacket.toBytes q).take 520 = c :: c' :: s ∧
        (EOpcode.ofCode (joinBytes c c') = some .rrq ∨ EOpcode.ofCode (joinBytes c c') = some .wrq) := by
      simp only [TRequestPacket.toBytes, appendIntegral_eq, List.nil_append, List.cons_append, List.take_succ_cons]
      exact ⟨_, _, _, rfl, by cases q.type <;> decide⟩
    have hparse : parsePacket (c :: c' :: s) = parseRequest (c :: c' :: s) := by
      rw [parsePacket_cons]
      rcases hcode with hcode | hcode <;> rw [hcode]
    rw [TPacket.toBytes, hbytes, hparse] at h
    rcases WireFormat.parseRequest_cases (c := c) (d := c') (s := s) with ⟨m, -, he⟩ | ⟨-, he⟩
    · cases he.symm.trans h
    · cases he.symm.trans h
  | data b =>
    have hbytes : (TDataPacket.toBytes b).take 520 = TDataPacket.toBytes ⟨b.blockID, b.data.take 516⟩ := by
      simp only [TDataPacket.toBytes, appendIntegral_eq, List.nil_append, List.cons_append, List.take_succ_cons]
    rw [TPacket.toBytes, hbytes, parsePacket_dataBytes] at h
    cases h
    exact ⟨b, rfl, rfl⟩
  | ack k =>
    have hack := arrives_ack ⟨0, 0⟩ ⟨0, 0⟩ k.blockID
    cases hack.symm.trans h
  | error e =>
    obtain ⟨e', he⟩ := arrives_error ⟨0, 0⟩ ⟨0, 0⟩ e
    cases he.symm.trans h

theorem received_of_le {id : UInt16} (h : id.toNat ≤ 15) : received id = id :=
  (received_eq_iff id).mpr ⟨by omega, by omega⟩

/-- The first number that is lost. -/
theorem received_16 : received 16 = 0 := by decide

/-! ## The error packets of the code

An answer to a packet that could be read has a message of the code's own, and goes
through. -/

theorem illegalOpcode_plain : Plain (.make .illegalOpcode []) := by constructor <;> decide

theorem fileNotFound_plain : Plain (.make .fileNotFound []) := by constructor <;> decide

theorem unknownTransferID_plain : Plain (.make .unknownTransferID []) := by constructor <;> decide

theorem unexpectedBlockID_plain : Plain (.make .illegalOpcode (ascii "Unexpected BlockID")) := by
  constructor <;> decide

/-- A visitor that expects some packets and finds fault with others. -/
def AnswersPlain {α : Type} (v : Expecting α) : Prop := ∀ p e, v.visit p = .answer e → Plain e

theorem AnswersPlain.of_cases {α : Type} {v : Expecting α}
    (hr : ∀ p e, v.request p = .answer e → Plain e) (hd : ∀ p e, v.data p = .answer e → Plain e)
    (ha : ∀ p e, v.ack p = .answer e → Plain e) : AnswersPlain v := by
  intro p e h
  cases p with
  | request p => exact hr p e h
  | data p => exact hd p e h
  | ack p => exact ha p e h
  | error p => cases h

theorem illegal_plain {α β : Type} (_ : β) (e : TErrorPacket) (h : (illegal : Visited α) = .answer e) :
    Plain e := by
  cases h
  exact illegalOpcode_plain

theorem got_plain {α β : Type} {a : α} (_ : β) (e : TErrorPacket) (h : Visited.got a = .answer e) :
    Plain e := by
  cases h

theorem reading_answersPlain (files : Files) : AnswersPlain (TReadingClientBase.visitor files) := by
  refine .of_cases (fun p e h => ?_) illegal_plain fun p => got_plain p
  simp only [TReadingClientBase.visitor] at h
  split at h <;> cases h
  exact fileNotFound_plain

theorem writing_answersPlain : AnswersPlain TWritingClientBase.visitor :=
  .of_cases (fun p => got_plain p) (fun p => got_plain p) illegal_plain

theorem request_answersPlain : AnswersPlain requestVisitor :=
  .of_cases (fun p => got_plain p) illegal_plain illegal_plain

theorem readPacket_answersPlain : AnswersPlain readPacketVisitor :=
  .of_cases illegal_plain (fun p => got_plain p) illegal_plain

theorem writePacket_answersPlain : AnswersPlain writePacketVisitor :=
  .of_cases illegal_plain illegal_plain fun p => got_plain p

/-- A packet that is plain if it is an error packet. -/
@[simp] def Goes : TPacket → Prop
  | .error e => Plain e
  | _ => True

theorem Role.handle_goes (files : Files) (disk : Disk) (p : TPacket) (role : Role) :
    ∀ q ∈ (role.handle files disk p).sends, Goes q := by
  cases role with
  | reading c =>
    simp only [Role.handle, TReadingClientBase.handle]
    split
    · simp
    · rename_i e he
      simpa using reading_answersPlain files p e he
    · split
      · simp
      · split <;> simp
  | writing c =>
    simp only [Role.handle, TWritingClientBase.handle]
    split
    · simp
    · rename_i e he
      simpa using writing_answersPlain p e he
    · split <;> simp

theorem refused_goes {files : Files} {io : Io} {port : UInt16} {src : Endpoint} {p : TPacket} {answer : Sends}
    (h : acceptClient files io port ⟨src, .ok p⟩ = .refused answer) : ∀ q ∈ answer, Goes q.2 := by
  simp only [acceptClient] at h
  split at h
  · cases h
    simp
  · rename_i e he
    cases h
    simpa using request_answersPlain p e he
  · split at h <;> cases h

theorem opened_goes {files : Files} {io : Io} {port : UInt16} {src : Endpoint} {p : TPacket}
    {client : IClient} {sends : Sends} {more : Bool}
    (h : acceptClient files io port ⟨src, .ok p⟩ = .opened client sends more) : ∀ q ∈ sends, Goes q.2 := by
  simp only [acceptClient] at h
  split at h
  · cases h
  · cases h
  · split at h
    · cases h
    · rename_i request _ _ role _
      cases h
      intro q hq
      obtain ⟨p', hp', rfl⟩ := List.mem_map.mp hq
      exact Role.handle_goes files io.disk (.request request) role p' hp'

theorem sendTo_goes {σ : Type} {port : UInt16} {packet : TPacket} {thrown next : σ} {q : UInt16 × TPacket}
    (hq : q ∈ (sendTo port packet thrown next).2) (h : Goes packet) : Goes q.2 := by
  rw [eq_of_mem_sendTo hq]
  exact h

theorem Read.receive_goes (s : Read) (src : Endpoint) (p : TPacket) :
    ∀ q ∈ (s.receive ⟨src, .ok p⟩).2, Goes q.2 := by
  simp only [Read.receive]
  split
  · exact fun _ hq => sendTo_goes hq unknownTransferID_plain
  · split
    · simp
    · rename_i e he
      exact fun _ hq => sendTo_goes hq (readPacket_answersPlain p e he)
    · split
      · simp
      · exact fun _ hq => sendTo_goes hq trivial

theorem Write.loop_goes (s : Write) : ∀ q ∈ s.loop.2, Goes q.2 := by
  unfold Write.loop
  split
  · simp
  · exact fun _ hq => sendTo_goes hq trivial

theorem Write.receive_goes (s : Write) (src : Endpoint) (p : TPacket) :
    ∀ q ∈ (s.receive ⟨src, .ok p⟩).2, Goes q.2 := by
  unfold Write.receive
  split
  · simp only [Write.receiveRequestAck]
    split
    · simp
    · rename_i e he
      exact fun _ hq => sendTo_goes hq (writePacket_answersPlain p e he)
    · split
      · exact fun _ hq => sendTo_goes hq unexpectedBlockID_plain
      · exact Write.loop_goes _
  · simp only [Write.receiveBlockAck]
    split
    · simp
    · rename_i e he
      exact fun _ hq => sendTo_goes hq (writePacket_answersPlain p e he)
    · split
      · simp
      · exact Write.loop_goes _

/-- The same for the parties. -/
theorem receive_goes {S : Setup} {T : Transfer σ} {p : Parties σ} {d : Datagram} {a : Arrival}
    {r : Parties σ × List Datagram} (hT : ∀ s src p, ∀ q ∈ (T.receive s ⟨src, .ok p⟩).2, Goes q.2)
    (h : Reception S T p d a r) : ∀ q ∈ r.2, Goes q.packet := by
  cases h with
  | lost => simp
  | client =>
    intro q hq
    obtain ⟨q', hq', rfl⟩ := List.mem_map.mp hq
    exact hT _ _ _ q' hq'
  | refused _ ha =>
    intro q hq
    obtain ⟨q', hq', rfl⟩ := List.mem_map.mp hq
    exact refused_goes ha q' hq'
  | opened _ _ ha =>
    intro q hq
    obtain ⟨q', hq', rfl⟩ := List.mem_map.mp hq
    exact opened_goes ha q' hq'
  | session =>
    intro q hq
    obtain ⟨q', hq', rfl⟩ := List.mem_map.mp hq
    obtain ⟨p', hp', rfl⟩ := List.mem_map.mp hq'
    exact Role.handle_goes _ _ _ _ p' hp'

end NetworksLab.L5.TftpNet
