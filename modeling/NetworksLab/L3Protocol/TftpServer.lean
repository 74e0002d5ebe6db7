import NetworksLab.L1Encoding.Packet
import NetworksLab.L2Machine.Stream

/-!
# TFTP server sessions (`udp/lib/Server.cpp`)

A session (`IClient`) has a socket of its own and serves one file to one
address or stores one. The two base classes run the block counter; a subclass
says where blocks come from (`Source`) or go to (`Sink`). A packet is taken
apart by a visitor that overrides what it expects and answers everything else
with ILLEGAL_OPCODE (`Expecting`).

Left out: the lines written to `errStream`; the time stamps (the timeout of a
session is a step of the network model); what the destructor of
`TNetAsciiWritingClient` does with its data.

What a call finds in the file system comes from outside: `files` gives the
stream on an existing file, `Io` whether an output file opens and what becomes
of the next bytes written to one.

Results:
* `TReadingClientBase.handle_outcome`, `TWritingClientBase.handle_outcome`: what
  one packet does to a session (`Outcome`), with everything it sends.
-/
namespace NetworksLab.L3.Tftp
open NetworksLab.L1.Packet NetworksLab.L1.NetAscii NetworksLab.L2.Stream

/-! ## Packets that arrive -/

/-- The socket address inside a `TAddress`. -/
structure Endpoint where
  host : UInt32
  port : UInt16
  deriving DecidableEq, Repr

/-- mirrors udp/lib/Transport.h:76-80; `TransferID` is the port of `From`. -/
structure TReceiveResult where
  src : Endpoint
  packet : Except TParsePacketError TPacket

def TReceiveResult.transferID (r : TReceiveResult) : UInt16 := r.src.port

/-- The datagram `bytes` from `src`: what does not fit the buffer is lost.
mirrors udp/lib/Transport.cpp:189-211 -/
def TTransport.receive (src : Endpoint) (bytes : Bytes) : TReceiveResult := ⟨src, parsePacket (bytes.take 520)⟩

/-- What a visitor has seen: an error packet, one that it answers with an
error, or one that it expects. -/
inductive Visited (α : Type) where
  | received (e : TErrorPacket)
  | answer (e : TErrorPacket)
  | got (a : α)
  deriving DecidableEq, Repr

/-- The default of `Visit…Packet`. -/
def illegal {α : Type} : Visited α := .answer (.make .illegalOpcode [])

/-- A visitor, by what it overrides.
mirrors udp/lib/Packet.cpp:251-273 (`TExpectingPacketVisitorBase`) -/
structure Expecting (α : Type) where
  request : TRequestPacket → Visited α := fun _ => illegal
  data : TDataPacket → Visited α := fun _ => illegal
  ack : TAcknowledgePacket → Visited α := fun _ => illegal

/-- `IPacket::Accept` -/
def Expecting.visit {α : Type} (v : Expecting α) : TPacket → Visited α
  | .request p => v.request p
  | .data p => v.data p
  | .ack p => v.ack p
  | .error e => .received e

/-! ## The file system as one call finds it -/

/-- Whether the output file of a new session opens, and what becomes of the
bytes of the next write. -/
structure Io where
  opened : Bool
  disk : Disk
  deriving DecidableEq, Repr

/-- The stream on each file that exists. -/
abbrev Files := Bytes → Option IStream

/-! ## Sessions that read a file -/

/-- The state of the subclasses of `TReadingClientBase`. -/
inductive Source where
  | octet (from_ : IStream)
  | netAscii (contents : Bytes) (begin_ : Nat)
  deriving DecidableEq, Repr

/-- mirrors udp/lib/Server.cpp:153-155, 186-188 -/
def Source.eof : Source → Bool
  | .octet from_ => from_.eofbit
  | .netAscii contents begin_ => begin_ == contents.length

/-- mirrors udp/lib/Server.cpp:157-161, 190-195 -/
def Source.nextBlock : Source → Bytes × Source
  | .octet from_ =>
    let r := from_.read 512
    (r.1, .octet r.2)
  | .netAscii contents begin_ =>
    let end_ := min (begin_ + 512) contents.length
    ((contents.drop begin_).take (end_ - begin_), .netAscii contents end_)

/-- What `Handle` leaves: the session, what it has sent to its `Address`, and
the result. -/
@[ext] structure Handled (α : Type) where
  client : α
  sends : List TPacket
  more : Bool
  deriving DecidableEq, Repr

structure TReadingClientBase where
  blockID : UInt16
  source : Source
  deriving DecidableEq, Repr

/-- `exists` returns: it throws with some names, and `TftpMissing.lean` has a server
that ends then.
mirrors udp/lib/Server.cpp:64-85 -/
def TReadingClientBase.visitor (files : Files) : Expecting UInt16 where
  request p := if (files p.filename).isSome then .got 0 else .answer (.make .fileNotFound [])
  ack p := .got p.blockID

/-- mirrors udp/lib/Server.cpp:97-130 -/
def TReadingClientBase.handle (files : Files) (c : TReadingClientBase) (packet : TPacket) :
    Handled TReadingClientBase :=
  match (visitor files).visit packet with
  | .received _ => ⟨c, [], false⟩
  | .answer e => ⟨c, [.error e], false⟩
  | .got blockID =>
    if c.blockID ≠ blockID then ⟨c, [], true⟩  -- duplicate
    else if c.source.eof then ⟨{ c with blockID := c.blockID + 1 }, [], false⟩
    else
      let next := c.source.nextBlock
      ⟨⟨c.blockID + 1, next.2⟩, [.data ⟨c.blockID + 1, next.1⟩], true⟩

/-! ## Sessions that write a file -/

/-- The state of the subclasses of `TWritingClientBase`. -/
inductive Sink where
  | octet (out : OStream)
  | netAscii (data : Bytes)
  deriving DecidableEq, Repr

/-- mirrors udp/lib/Server.cpp:288-291, 315-317 -/
def Sink.append (s : Sink) (data : Bytes) (disk : Disk) : Sink :=
  match s with
  | .octet out => .octet (out.write data disk)
  | .netAscii d => .netAscii (d ++ data)

structure TWritingClientBase where
  blockID : UInt16
  sink : Sink
  deriving DecidableEq, Repr

/-- The block ID and the data of the packet; a request has none.
mirrors udp/lib/Server.cpp:203-224 -/
def TWritingClientBase.visitor : Expecting (UInt16 × Bytes) where
  request _ := .got (0, [])
  data p := .got (p.blockID, p.data)

/-- mirrors udp/lib/Server.cpp:236-266 -/
def TWritingClientBase.handle (disk : Disk) (c : TWritingClientBase) (packet : TPacket) :
    Handled TWritingClientBase :=
  match visitor.visit packet with
  | .received _ => ⟨c, [], false⟩
  | .answer e => ⟨c, [.error e], false⟩
  | .got (blockID, data) =>
    if c.blockID ≠ blockID then ⟨c, [], true⟩  -- duplicate
    else
      ⟨⟨c.blockID + 1, c.sink.append data disk⟩, [.ack ⟨c.blockID⟩],
        c.blockID + 1 == 1 || data.length == 512⟩

/-! ## Sessions -/

inductive Role where
  | reading (c : TReadingClientBase)
  | writing (c : TWritingClientBase)
  deriving DecidableEq, Repr

/-- The virtual `Handle`. -/
def Role.handle (files : Files) (disk : Disk) (packet : TPacket) : Role → Handled Role
  | .reading c =>
    let h := c.handle files packet
    ⟨.reading h.client, h.sends, h.more⟩
  | .writing c =>
    let h := c.handle disk packet
    ⟨.writing h.client, h.sends, h.more⟩

/-- A session: its peer, the port its own socket is bound to, and the rest. -/
structure IClient where
  address : Endpoint
  port : UInt16
  role : Role
  deriving DecidableEq, Repr

/-- A packet with the address it is sent to. -/
abbrev Sends := List (Endpoint × TPacket)

/-- mirrors udp/lib/Server.cpp:31-43 -/
def IClient.handlePacket (files : Files) (disk : Disk) (c : IClient) (packet : TReceiveResult) :
    IClient × Sends × Bool :=
  match packet.packet with
  | .error e => (c, [(packet.src, .error (.make .illegalOpcode e.message))], false)
  | .ok p =>
    let h := c.role.handle files disk p
    ({ c with role := h.client }, h.sends.map fun q => (c.address, q), h.more)

/-- mirrors udp/lib/Server.cpp:324-336 (`TRequestVisitor`) -/
def requestVisitor : Expecting TRequestPacket where
  request p := .got p

/-- The constructors. `none`: reading the file throws out of the constructor of
`TNetAsciiReadingClient`.
mirrors udp/lib/Server.cpp:142-148, 170-182, 277-283, 300-306, 468-518 -/
def newClient (files : Files) (opened : Bool) (request : TRequestPacket) : Option Role :=
  let from_ := (files request.filename).getD .unopened
  match request.type, request.mode with
  | .read, .octet => some (.reading ⟨0, .octet from_⟩)
  | .read, .netascii =>
    from_.contents.map fun contents => .reading ⟨0, .netAscii (toNetASCII contents) 0⟩
  | .write, .octet => some (.writing ⟨0, .octet (.ofFile opened)⟩)
  | .write, .netascii => some (.writing ⟨0, .netAscii []⟩)

/-- What becomes of a packet on the request port: an answer from there, or a
session with what it has sent and whether it goes on (if not, it is dropped at
once). -/
inductive Accepted where
  | refused (answer : Sends)
  | opened (client : IClient) (sends : Sends) (more : Bool)
  | threw
  deriving DecidableEq, Repr

/-- `port` is what `answer.Open()` finds.
mirrors udp/lib/Server.cpp:427-527 -/
def acceptClient (files : Files) (io : Io) (port : UInt16) (packet : TReceiveResult) : Accepted :=
  match packet.packet with
  | .error e => .refused [(packet.src, .error (.make .illegalOpcode e.message))]
  | .ok p =>
    match requestVisitor.visit p with
    | .received _ => .refused []
    | .answer e => .refused [(packet.src, .error e)]
    | .got request =>
      match newClient files io.opened request with
      | none => .threw
      | some role =>
        let h := role.handle files io.disk (.request request)
        .opened ⟨packet.src, port, h.client⟩ (h.sends.map fun q => (packet.src, q)) h.more

/-! ## One packet at a session -/

namespace TReadingClientBase

variable {files : Files} {c : TReadingClientBase} {p : TPacket}

/-- What a packet does to a session: it ends it, with an error packet or none;
nothing; or it makes the session send the next block. -/
inductive Outcome (files : Files) (c : TReadingClientBase) (p : TPacket) :
    Handled TReadingClientBase → Prop
  | ended {h : Handled TReadingClientBase} : h.more = false →
      (∀ q ∈ h.sends, ∃ e, q = .error e) → Outcome files c p h
  | stale : Outcome files c p ⟨c, [], true⟩
  | next : (visitor files).visit p = .got c.blockID → c.source.eof = false →
      Outcome files c p ⟨⟨c.blockID + 1, c.source.nextBlock.2⟩,
        [.data ⟨c.blockID + 1, c.source.nextBlock.1⟩], true⟩

theorem handle_outcome (files : Files) (c : TReadingClientBase) (p : TPacket) :
    Outcome files c p (c.handle files p) := by
  unfold handle
  split
  · exact .ended rfl (by simp)
  · exact .ended rfl (by simp)
  · rename_i id hid
    split
    · exact .stale
    · rename_i hne
      obtain rfl := not_not.mp hne
      split
      · exact .ended rfl (by simp)
      · rename_i he
        exact .next hid (Bool.not_eq_true _ ▸ he)

theorem handle_last (h : (visitor files).visit p = .got c.blockID) (he : c.source.eof = true) :
    c.handle files p = ⟨{ c with blockID := c.blockID + 1 }, [], false⟩ := by
  simp [handle, h, he]

theorem handle_next (h : (visitor files).visit p = .got c.blockID) (he : c.source.eof = false) :
    c.handle files p = ⟨⟨c.blockID + 1, c.source.nextBlock.2⟩,
      [.data ⟨c.blockID + 1, c.source.nextBlock.1⟩], true⟩ := by
  simp [handle, h, he]

end TReadingClientBase

namespace TWritingClientBase

/-- What a packet does to a session: it ends it, with an error packet or none;
nothing; or it is appended and acknowledged. -/
inductive Outcome (disk : Disk) (c : TWritingClientBase) (p : TPacket) :
    Handled TWritingClientBase → Prop
  | ended {h : Handled TWritingClientBase} : h.client = c → h.more = false →
      (∀ q ∈ h.sends, ∃ e, q = .error e) → Outcome disk c p h
  | stale : Outcome disk c p ⟨c, [], true⟩
  | block {data : Bytes} : visitor.visit p = .got (c.blockID, data) →
      Outcome disk c p ⟨⟨c.blockID + 1, c.sink.append data disk⟩, [.ack ⟨c.blockID⟩],
        c.blockID + 1 == 1 || data.length == 512⟩

theorem handle_outcome (disk : Disk) (c : TWritingClientBase) (p : TPacket) :
    Outcome disk c p (c.handle disk p) := by
  unfold handle
  split
  · exact .ended rfl rfl (by simp)
  · exact .ended rfl rfl (by simp)
  · rename_i id data hid
    split
    · exact .stale
    · rename_i hne
      obtain rfl := not_not.mp hne
      exact .block hid

end TWritingClientBase

/-! ## What is looked up

Only a session that reads looks at the file system while it runs, and only for a
request. -/

theorem Role.handle_congr {files files' : Files} {role : Role} {p : TPacket}
    (h : ∀ r q, role = .reading r → p = .request q → files q.filename = files' q.filename)
    (disk : Disk) : role.handle files disk p = role.handle files' disk p := by
  cases role with
  | writing c => rfl
  | reading c =>
    have hvisit : (TReadingClientBase.visitor files).visit p =
        (TReadingClientBase.visitor files').visit p := by
      cases p with
      | request q => simp only [Expecting.visit, TReadingClientBase.visitor, h c q rfl rfl]
      | data => rfl
      | ack => rfl
      | error => rfl
    simp only [handle, TReadingClientBase.handle, hvisit]

theorem IClient.handlePacket_congr {files files' : Files} {c : IClient} {packet : TReceiveResult}
    (h : ∀ r q, c.role = .reading r → packet.packet = .ok (.request q) →
      files q.filename = files' q.filename)
    (disk : Disk) : c.handlePacket files disk packet = c.handlePacket files' disk packet := by
  unfold handlePacket
  cases hp : packet.packet with
  | error e => rfl
  | ok p =>
    have hrole := Role.handle_congr (p := p) (fun r q hr hq => h r q hr (by rw [hp, hq])) disk
    simp only [hrole]

theorem newClient_congr {files files' : Files} {q : TRequestPacket}
    (h : files q.filename = files' q.filename) (opened : Bool) :
    newClient files opened q = newClient files' opened q := by
  unfold newClient
  rw [h]

theorem acceptClient_congr {files files' : Files} {packet : TReceiveResult}
    (h : ∀ q, packet.packet = .ok (.request q) → files q.filename = files' q.filename)
    (io : Io) (port : UInt16) : acceptClient files io port packet = acceptClient files' io port packet := by
  unfold acceptClient
  cases hp : packet.packet with
  | error e => rfl
  | ok p =>
    cases p with
    | request q =>
      have hrole (role : Role) : role.handle files io.disk (.request q) =
          role.handle files' io.disk (.request q) :=
        Role.handle_congr (fun _ q' _ hq' => by cases hq'; exact h q hp) _
      simp only [Expecting.visit, requestVisitor, newClient_congr (h q hp), hrole]
    | data => rfl
    | ack => rfl
    | error => rfl

theorem IClient.handlePacket_reading {files : Files} {disk : Disk} {c : IClient}
    {r : TReadingClientBase} (h : c.role = .reading r) (src : Endpoint) (p : TPacket) :
    c.handlePacket files disk ⟨src, .ok p⟩ =
      ({ c with role := .reading (r.handle files p).client },
        (r.handle files p).sends.map fun q => (c.address, q), (r.handle files p).more) := by
  simp only [handlePacket, h, Role.handle]

theorem IClient.handlePacket_writing {files : Files} {disk : Disk} {c : IClient}
    {r : TWritingClientBase} (h : c.role = .writing r) (src : Endpoint) (p : TPacket) :
    c.handlePacket files disk ⟨src, .ok p⟩ =
      ({ c with role := .writing (r.handle disk p).client },
        (r.handle disk p).sends.map fun q => (c.address, q), (r.handle disk p).more) := by
  simp only [handlePacket, h, Role.handle]

/-! ## What has been sent -/

/-- What has been sent, less the error packets. -/
def dealt {α : Type} (sends : List (α × TPacket)) : List (α × TPacket) :=
  sends.filter fun q => match q.2 with
    | .error _ => false
    | _ => true

section
variable {α : Type}

theorem dealt_append (xs ys : List (α × TPacket)) : dealt (xs ++ ys) = dealt xs ++ dealt ys :=
  List.filter_append ..

theorem dealt_errors {sends : List (α × TPacket)} (h : ∀ q ∈ sends, ∃ e, q.2 = .error e) :
    dealt sends = [] := by
  refine List.filter_eq_nil_iff.mpr fun q hq => ?_
  obtain ⟨e, he⟩ := h q hq
  simp [he]

end

end NetworksLab.L3.Tftp
