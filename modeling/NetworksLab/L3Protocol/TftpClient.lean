import NetworksLab.L3Protocol.TftpServer

/-!
# TFTP client transfers (`udp/lib/Client.cpp`)

`TClient::Read` and `TClient::Write` are each a request and a loop around
`ReceivePacket`. `start` runs the function up to its first `ReceivePacket`,
`receive` from one to the next (or to the return or the exception); packets
are sent to a port of the server's host. A datagram may have come from port 0,
where none can be sent: `Send` throws, and `Read` and `Write` with it.

The two loops differ in the type of the block number, `size_t` in `Read` and
`uint16_t` in `Write`; in the check of the sender's port, which only `Read`
makes; and in where they stop: at a short block, or at `eof()`.

Results:
* `Read.receive_cases`: a packet brings a download one block on, or changes
  neither its output nor its block number and sends errors only.
* `Write.receive_cases`: a packet acknowledges the request or the current block,
  ends the upload with an exception, or changes nothing.
-/
namespace NetworksLab.L3.Tftp
open NetworksLab.L1.Packet NetworksLab.L2.Stream

inductive Status where
  | running
  | returned
  | threw (message : Bytes)
  deriving DecidableEq, Repr

/-- Packets with the port of the server's host they are sent to. -/
abbrev SendsTo := List (UInt16 × TPacket)

/-- mirrors udp/lib/Transport.cpp:170-172 -/
def sendError : Bytes := ascii "Unable to send packet"

/-- `transport.Send`, with the state in which it throws, as it does for port 0, and
the one behind it.
mirrors udp/lib/Transport.cpp:166-174 -/
def sendTo {σ : Type} (port : UInt16) (packet : TPacket) (thrown next : σ) : σ × SendsTo :=
  if port = 0 then (thrown, []) else (next, [(port, packet)])

theorem sendTo_of_ne {σ : Type} {port : UInt16} (h : port ≠ 0) (packet : TPacket) (thrown next : σ) :
    sendTo port packet thrown next = (next, [(port, packet)]) := if_neg h

theorem eq_of_mem_sendTo {σ : Type} {port : UInt16} {packet : TPacket} {thrown next : σ} {q : UInt16 × TPacket}
    (h : q ∈ (sendTo port packet thrown next).2) : q = (port, packet) := by
  unfold sendTo at h
  split at h
  · cases h
  · exact List.mem_singleton.mp h

/-- What is the same in both states. -/
theorem sendTo_state {σ τ : Type} (f : σ → τ) {thrown next : σ} (h : f thrown = f next) (port : UInt16)
    (packet : TPacket) : f (sendTo port packet thrown next).1 = f next := by
  unfold sendTo
  split
  · exact h
  · rfl

/-- An exception, whether the send throws or what comes behind it. -/
theorem threw_sendTo {σ : Type} (threw : Bytes → σ) (m₁ m₂ : Bytes) (port : UInt16) (packet : TPacket) :
    ∃ message, (sendTo port packet (threw m₁) (threw m₂)).1 = threw message := by
  unfold sendTo
  split
  · exact ⟨m₁, rfl⟩
  · exact ⟨m₂, rfl⟩

/-- mirrors udp/lib/Client.cpp:21-38 -/
def readPacketVisitor : Expecting TDataPacket where
  data p := .got p

/-- mirrors udp/lib/Client.cpp:40-52 -/
def writePacketVisitor : Expecting UInt16 where
  ack p := .got p.blockID

def illegalAnswer : Bytes := ascii "Illegal answer from server"

/-- `ReceivePacket` when nothing arrives in time.
mirrors udp/lib/Client.cpp:247-254 -/
def timeoutError : Bytes := ascii "Timeout"

/-! ## Download -/

/-- The variables of `Read`; `out` is what has been written to `to`. -/
structure Read where
  serverPort : UInt16
  end_ : Bool
  blockID : UInt64
  out : Bytes
  status : Status
  deriving DecidableEq, Repr

def Read.threw (s : Read) (message : Bytes) : Read := { s with status := .threw message }

/-- mirrors udp/lib/Client.cpp:80-92 -/
def Read.start (port : UInt16) (filename : Bytes) : Read × SendsTo :=
  (⟨0, false, 1, [], .running⟩, [(port, .request ⟨.read, filename, .octet⟩)])

/-- The rest of the loop body for the block that is due.
mirrors udp/lib/Client.cpp:127-133 -/
def Read.accept (s : Read) (d : TDataPacket) : Read × SendsTo :=
  let s := { s with end_ := decide (d.data.length < 512), out := s.out ++ d.data }
  sendTo s.serverPort (.ack ⟨s.blockID.toUInt16⟩) (s.threw sendError)
    { s with blockID := s.blockID + 1, status := if s.end_ then .returned else .running }

/-- One turn of the loop.
mirrors udp/lib/Client.cpp:94-134 -/
def Read.receive (s : Read) (packet : TReceiveResult) : Read × SendsTo :=
  match packet.packet with
  | .error e =>
    sendTo packet.transferID (.error (.make .illegalOpcode e.message)) (s.threw sendError) (s.threw illegalAnswer)
  | .ok p =>
    let serverAnswerPort := packet.transferID
    if s.serverPort ≠ 0 ∧ s.serverPort ≠ serverAnswerPort then
      sendTo serverAnswerPort (.error (.make .unknownTransferID [])) (s.threw sendError) s
    else
      let s := { s with serverPort := serverAnswerPort }
      match readPacketVisitor.visit p with
      | .received e => (s.threw (ascii "Server: " ++ e.message), [])
      | .answer e =>
        sendTo s.serverPort (.error e) (s.threw sendError) (s.threw (ascii "Client: " ++ e.message))
      | .got d =>
        if d.blockID.toUInt64 ≠ s.blockID then (s, [])  -- duplicate
        else s.accept d

def Read.timeout (s : Read) : Read := s.threw timeoutError

theorem readPacketVisitor_got {p : TPacket} {d : TDataPacket} :
    readPacketVisitor.visit p = .got d ↔ p = .data d := by
  cases p <;> simp [readPacketVisitor, Expecting.visit, illegal]

/-- Only error packets are sent. -/
def ErrorsOnly (sends : SendsTo) : Prop := ∀ q ∈ sends, ∃ e, q.2 = .error e

theorem errorsOnly_nil : ErrorsOnly [] := fun _ h => absurd h List.not_mem_nil

theorem errorsOnly_sendTo {σ : Type} (port : UInt16) (e : TErrorPacket) (thrown next : σ) :
    ErrorsOnly (sendTo port (.error e) thrown next).2 := by
  intro q hq
  exact ⟨e, congrArg Prod.snd (eq_of_mem_sendTo hq)⟩

/-- The output and the block number stay, and nothing but errors is sent. -/
structure Read.Idle (s : Read) (r : Read × SendsTo) : Prop where
  out : r.1.out = s.out
  blockID : r.1.blockID = s.blockID
  status : r.1.status = s.status ∨ ∃ message, r.1.status = .threw message
  sends : ErrorsOnly r.2

/-- What does not parse. -/
theorem Read.receive_error (s : Read) (src : Endpoint) (e : TParsePacketError) :
    (∃ message, (s.receive ⟨src, .error e⟩).1 = s.threw message) ∧ ErrorsOnly (s.receive ⟨src, .error e⟩).2 :=
  ⟨threw_sendTo s.threw _ _ _ _, errorsOnly_sendTo _ _ _ _⟩

/-- With `thrown` and `next` as they are in `Read.receive`, both are idle. -/
theorem Read.idle_sendTo {s thrown next : Read} (hthrown : s.Idle (thrown, [])) (hnext : s.Idle (next, []))
    (port : UInt16) (e : TErrorPacket) : s.Idle (sendTo port (.error e) thrown next) := by
  have hsends := errorsOnly_sendTo port e thrown next
  unfold sendTo at hsends ⊢
  split
  · exact hthrown
  · rename_i hne
    rw [if_neg hne] at hsends
    exact ⟨hnext.out, hnext.blockID, hnext.status, hsends⟩

theorem Read.idle_threw (s : Read) (port : UInt16) (message : Bytes) :
    s.Idle (Read.threw { s with serverPort := port } message, []) := ⟨rfl, rfl, .inr ⟨_, rfl⟩, errorsOnly_nil⟩

theorem Read.receive_cases (s : Read) (src : Endpoint) (p : TPacket) :
    s.Idle (s.receive ⟨src, .ok p⟩) ∨
      ∃ d, p = .data d ∧ d.blockID.toUInt64 = s.blockID ∧
        s.receive ⟨src, .ok p⟩ = Read.accept { s with serverPort := src.port } d := by
  unfold receive
  split
  · rename_i e he; cases he
  · rename_i p' hp; cases hp
    dsimp only [TReceiveResult.transferID]
    split
    · exact .inl (idle_sendTo (s.idle_threw s.serverPort _) ⟨rfl, rfl, .inl rfl, errorsOnly_nil⟩ _ _)
    · split
      · exact .inl (s.idle_threw _ _)
      · exact .inl (idle_sendTo (s.idle_threw _ _) (s.idle_threw _ _) _ _)
      · rename_i d hd
        split
        · exact .inl ⟨rfl, rfl, .inl rfl, errorsOnly_nil⟩
        · rename_i hid
          exact .inr ⟨d, readPacketVisitor_got.mp hd, not_not.mp hid, rfl⟩

theorem Read.accept_serverPort (s : Read) (d : TDataPacket) : (s.accept d).1.serverPort = s.serverPort :=
  sendTo_state Read.serverPort (by rfl) _ _

theorem Read.accept_of_ne {s : Read} (h : s.serverPort ≠ 0) (d : TDataPacket) :
    s.accept d = ({ s with
      end_ := decide (d.data.length < 512), out := s.out ++ d.data, blockID := s.blockID + 1
      status := if decide (d.data.length < 512) then .returned else .running },
      [(s.serverPort, .ack ⟨s.blockID.toUInt16⟩)]) := sendTo_of_ne h _ _ _

/-- The block is in the output, and its acknowledgement cannot be sent. -/
theorem Read.accept_zero {s : Read} (h : s.serverPort = 0) (d : TDataPacket) :
    (s.accept d).1.out = s.out ++ d.data ∧ (s.accept d).1.status = .threw sendError ∧ (s.accept d).2 = [] := by
  simp [accept, sendTo, threw, h]

/-- The block that is due, from the server's port. -/
theorem Read.receive_block {s : Read} {src : Endpoint} {d : TDataPacket}
    (hs : s.serverPort = 0 ∨ s.serverPort = src.port) (hd : d.blockID.toUInt64 = s.blockID) :
    s.receive ⟨src, .ok (.data d)⟩ = Read.accept { s with serverPort := src.port } d := by
  have hp : ¬ (s.serverPort ≠ 0 ∧ s.serverPort ≠ src.port) := by tauto
  simp [receive, TReceiveResult.transferID, hp, readPacketVisitor_got.mpr rfl, hd]

/-! ## Upload -/

/-- Which `ReceivePacket` of `Write` is next. -/
inductive WritePhase where
  | request
  | block
  deriving DecidableEq, Repr

/-- The variables of `Write`; `transferID`, `blockID` and `end_` have no meaning
in the phase `request`. -/
structure Write where
  phase : WritePhase
  transferID : UInt16
  end_ : Bool
  blockID : UInt16
  data : IStream
  status : Status
  deriving DecidableEq, Repr

def Write.threw (s : Write) (message : Bytes) : Write := { s with status := .threw message }

/-- mirrors udp/lib/Client.cpp:144-153 -/
def Write.start (port : UInt16) (filename : Bytes) (data : IStream) : Write × SendsTo :=
  (⟨.request, 0, false, 0, data, .running⟩, [(port, .request ⟨.write, filename, .octet⟩)])

/-- From the head of the block loop to its `ReceivePacket`, or to the end.
mirrors udp/lib/Client.cpp:187-198 -/
def Write.loop (s : Write) : Write × SendsTo :=
  if s.end_ then ({ s with status := .returned }, [])
  else
    let block := s.data.read 512
    let s := { s with data := block.2, end_ := block.2.eofbit }
    sendTo s.transferID (.data ⟨s.blockID, block.1⟩) (s.threw sendError) s

theorem Write.loop_of_more {s : Write} (h : s.end_ = false) :
    s.loop = sendTo s.transferID (.data ⟨s.blockID, (s.data.read 512).1⟩)
      (Write.threw { s with data := (s.data.read 512).2, end_ := (s.data.read 512).2.eofbit } sendError)
      { s with data := (s.data.read 512).2, end_ := (s.data.read 512).2.eofbit } := by
  simp only [loop, h, Bool.false_eq_true, if_false]

theorem Write.loop_blockID (s : Write) : s.loop.1.blockID = s.blockID := by
  cases h : s.end_ with
  | true => simp only [loop, h, if_true]
  | false =>
    rw [loop_of_more h]
    exact sendTo_state Write.blockID (by rfl) _ _

/-- mirrors udp/lib/Client.cpp:155-186 -/
def Write.receiveRequestAck (s : Write) (packet : TReceiveResult) : Write × SendsTo :=
  match packet.packet with
  | .error e =>
    sendTo packet.transferID (.error (.make .illegalOpcode e.message)) (s.threw sendError) (s.threw illegalAnswer)
  | .ok p =>
    let s := { s with transferID := packet.transferID }
    match writePacketVisitor.visit p with
    | .received e => (s.threw (ascii "Server: " ++ e.message), [])
    | .answer e =>
      sendTo s.transferID (.error e) (s.threw sendError) (s.threw (ascii "Client: " ++ e.message))
    | .got blockID =>
      if blockID ≠ 0 then
        sendTo s.transferID (.error (.make .illegalOpcode (ascii "Unexpected BlockID"))) (s.threw sendError)
          (s.threw (ascii "Unexpected BlockID in server answer"))
      else Write.loop { s with phase := .block, end_ := false, blockID := 1 }

/-- One turn of the inner loop, with the rest of the block when it is acknowledged.
mirrors udp/lib/Client.cpp:201-228 -/
def Write.receiveBlockAck (s : Write) (packet : TReceiveResult) : Write × SendsTo :=
  match packet.packet with
  | .error e =>
    sendTo s.transferID (.error (.make .illegalOpcode e.message)) (s.threw sendError) (s.threw illegalAnswer)
  | .ok p =>
    match writePacketVisitor.visit p with
    | .received e => (s.threw (ascii "Server: " ++ e.message), [])
    | .answer e =>
      sendTo s.transferID (.error e) (s.threw sendError) (s.threw (ascii "Client: " ++ e.message))
    | .got blockID =>
      if blockID ≠ s.blockID then (s, [])
      else Write.loop { s with blockID := s.blockID + 1 }

def Write.receive (s : Write) (packet : TReceiveResult) : Write × SendsTo :=
  match s.phase with
  | .request => s.receiveRequestAck packet
  | .block => s.receiveBlockAck packet

def Write.timeout (s : Write) : Write := s.threw timeoutError

theorem writePacketVisitor_got {p : TPacket} {id : UInt16} :
    writePacketVisitor.visit p = .got id ↔ p = .ack ⟨id⟩ := by
  cases p with
  | ack a =>
    obtain ⟨id'⟩ := a
    simp [writePacketVisitor, Expecting.visit]
  | _ => simp [writePacketVisitor, Expecting.visit, illegal]

/-- What a packet does to `Write`: nothing, an exception, or the next block. -/
inductive Write.Received (s : Write) (src : Endpoint) (p : TPacket) : Write × SendsTo → Prop
  | stale : Received s src p (s, [])
  | threw {r : Write × SendsTo} {message : Bytes} : r.1.status = .threw message →
      ErrorsOnly r.2 → Received s src p r
  | requestAck : s.phase = .request → p = .ack ⟨0⟩ → Received s src p
      (Write.loop { s with transferID := src.port, phase := .block, end_ := false, blockID := 1 })
  | blockAck : s.phase = .block → p = .ack ⟨s.blockID⟩ → Received s src p
      (Write.loop { s with blockID := s.blockID + 1 })

/-- What does not parse. -/
theorem Write.receive_error (s : Write) (src : Endpoint) (e : TParsePacketError) :
    (∃ message, (s.receive ⟨src, .error e⟩).1 = s.threw message) ∧ ErrorsOnly (s.receive ⟨src, .error e⟩).2 := by
  unfold receive
  split
  · exact ⟨threw_sendTo s.threw _ _ _ _, errorsOnly_sendTo _ _ _ _⟩
  · exact ⟨threw_sendTo s.threw _ _ _ _, errorsOnly_sendTo _ _ _ _⟩

theorem Write.receive_cases (s : Write) (src : Endpoint) (p : TPacket) :
    s.Received src p (s.receive ⟨src, .ok p⟩) := by
  have hanswer (t : Write) (port : UInt16) (e : TErrorPacket) (message : Bytes) :
      s.Received src p (sendTo port (.error e) (t.threw sendError) (t.threw message)) := by
    obtain ⟨_, hthrew⟩ := threw_sendTo t.threw sendError message port (.error e)
    exact .threw (congrArg Write.status hthrew) (errorsOnly_sendTo _ _ _ _)
  unfold receive
  split
  · rename_i hphase
    unfold receiveRequestAck
    split
    · rename_i e he; cases he
    · rename_i p' hp; cases hp
      dsimp only
      split
      · exact .threw rfl errorsOnly_nil
      · exact hanswer _ _ _ _
      · rename_i id hid
        split
        · exact hanswer _ _ _ _
        · rename_i h0
          obtain rfl := not_not.mp h0
          exact .requestAck hphase (writePacketVisitor_got.mp hid)
  · rename_i hphase
    unfold receiveBlockAck
    split
    · rename_i e he; cases he
    · rename_i p' hp; cases hp
      split
      · exact .threw rfl errorsOnly_nil
      · exact hanswer _ _ _ _
      · rename_i id hid
        split
        · exact .stale
        · rename_i h0
          obtain rfl := not_not.mp h0
          exact .blockAck hphase (writePacketVisitor_got.mp hid)

end NetworksLab.L3.Tftp
