import NetworksLab.L1Encoding.NetAscii

/-!
# TFTP packets (`udp/lib/Packet.h`, `udp/lib/Packet.cpp`)

The four packet classes, their `ToBytes` and `ParsePacket`. The two integer
helpers are not inverse to each other:

* `appendIntegral` masks each byte with `0xf`, so the upper four bits of
  both bytes of a block ID or error code are lost;
* `readIntegral` shifts and ORs a sign-extended `char`, so a second byte
  from `0x80` on overwrites the first one with `0xff`.

Results:
* `appendIntegral_eq`, `readIntegral_two`: what each helper computes.
* `data_ack_roundtrip_iff`: DATA and ACK packets survive the round trip
  exactly when both bytes of the block ID are below 16.
* `parsePacket_exact_iff`: `ParsePacket` decodes the wire format exactly
  when the two-byte integer of a DATA, ACK or ERROR packet does not end in a
  byte from `0x80` on (unless the byte before is `0xff` anyway).
-/
namespace NetworksLab.L1.Packet
open NetworksLab.L1.NetAscii

/-- mirrors udp/lib/Packet.h:13-16 -/
inductive ETransferMode where
  | netascii | octet
  deriving DecidableEq, Repr

/-- mirrors udp/lib/Packet.h:31-34 (`TRequestPacket::EType`) -/
inductive RequestType where
  | read | write
  deriving DecidableEq, Repr

/-- `TErrorPacket::EType`. `ParseError` casts any 16-bit code to it, so it is
the code itself; the named ones are below. -/
abbrev ErrorType := UInt16

/-- mirrors udp/lib/Packet.h:90-99 -/
def ErrorType.undefined : ErrorType := 0
def ErrorType.fileNotFound : ErrorType := 1
def ErrorType.accessViolation : ErrorType := 2
def ErrorType.diskFull : ErrorType := 3
def ErrorType.illegalOpcode : ErrorType := 4
def ErrorType.unknownTransferID : ErrorType := 5
def ErrorType.fileExists : ErrorType := 6
def ErrorType.noUser : ErrorType := 7

/-- mirrors udp/lib/Packet.h:29-53 -/
structure TRequestPacket where
  type : RequestType
  filename : Bytes
  mode : ETransferMode
  deriving DecidableEq, Repr

/-- mirrors udp/lib/Packet.h:55-72 -/
structure TDataPacket where
  blockID : UInt16
  data : Bytes
  deriving DecidableEq, Repr

/-- mirrors udp/lib/Packet.h:74-86 -/
structure TAcknowledgePacket where
  blockID : UInt16
  deriving DecidableEq, Repr

/-- mirrors udp/lib/Packet.cpp:176-195 -/
def defaultErrorMessage (errorType : ErrorType) : Bytes :=
  if errorType = .fileNotFound then ascii "File not found"
  else if errorType = .accessViolation then ascii "Access violation"
  else if errorType = .diskFull then ascii "Disk full or allocation exceeded"
  else if errorType = .illegalOpcode then ascii "Illegal TFTP operation"
  else if errorType = .unknownTransferID then ascii "Unknown transfer ID"
  else if errorType = .fileExists then ascii "File already exists"
  else []

/-- mirrors udp/lib/Packet.h:88-117; built by `TErrorPacket.make` only. -/
structure TErrorPacket where
  type : ErrorType
  message : Bytes
  deriving DecidableEq, Repr

/-- The constructor: an empty message is replaced by the default one.
mirrors udp/lib/Packet.cpp:199-206 -/
def TErrorPacket.make (type : ErrorType) (message : Bytes) : TErrorPacket :=
  ⟨type, if message = [] then defaultErrorMessage type else message⟩

/-- `IPacket` with its four classes. -/
inductive TPacket where
  | request (p : TRequestPacket)
  | data (p : TDataPacket)
  | ack (p : TAcknowledgePacket)
  | error (p : TErrorPacket)
  deriving DecidableEq, Repr

/-- mirrors udp/lib/Packet.h:154-164 -/
structure TParsePacketError where
  type : ErrorType
  message : Bytes
  deriving DecidableEq, Repr

/-! ## Encoding -/

/-- `AppendIntegral<std::uint16_t>`, the only instance: `n = sizeof(T) = 2`.
mirrors udp/lib/Packet.cpp:46-53 -/
def appendIntegral (ret : Bytes) (value : UInt16) : Bytes :=
  (List.range 2).foldl
    (fun ret i =>
      let byte : UInt16 := (value >>> UInt16.ofNat (8 * (2 - i - 1))) &&& 0xf
      ret ++ [byte.toUInt8]) ret

/-- mirrors udp/lib/Packet.cpp:55-63 -/
def transferMode : ETransferMode → Bytes
  | .netascii => ascii "netascii"
  | .octet => ascii "octet"

/-- mirrors udp/lib/Packet.cpp:65-71 -/
inductive EOpcode where
  | rrq | wrq | data | ack | error
  deriving DecidableEq, Repr

def EOpcode.code : EOpcode → UInt16
  | .rrq => 1
  | .wrq => 2
  | .data => 3
  | .ack => 4
  | .error => 5

/-- `static_cast<EOpcode>` as the `switch` of `ParsePacket` sees it. -/
def EOpcode.ofCode (code : UInt16) : Option EOpcode :=
  [EOpcode.rrq, .wrq, .data, .ack, .error].find? fun o => o.code = code

/-- `static_cast<std::uint16_t>(Type_)`. -/
def RequestType.code : RequestType → UInt16
  | .read => 1
  | .write => 2

/-- mirrors udp/lib/Packet.cpp:83-99 -/
def TRequestPacket.toBytes (p : TRequestPacket) : Bytes :=
  appendIntegral [] p.type.code ++ toNetASCII p.filename ++ [NUL] ++ transferMode p.mode ++ [NUL]

/-- mirrors udp/lib/Packet.cpp:123-137 -/
def TDataPacket.toBytes (p : TDataPacket) : Bytes :=
  appendIntegral (appendIntegral [] EOpcode.data.code) p.blockID ++ p.data

/-- mirrors udp/lib/Packet.cpp:155-166 -/
def TAcknowledgePacket.toBytes (p : TAcknowledgePacket) : Bytes :=
  appendIntegral (appendIntegral [] EOpcode.ack.code) p.blockID

/-- mirrors udp/lib/Packet.cpp:208-223 -/
def TErrorPacket.toBytes (p : TErrorPacket) : Bytes :=
  appendIntegral (appendIntegral [] EOpcode.error.code) p.type ++ toNetASCII p.message ++ [NUL]

/-- The virtual `IPacket::ToBytes`. -/
def TPacket.toBytes : TPacket → Bytes
  | .request p => p.toBytes
  | .data p => p.toBytes
  | .ack p => p.toBytes
  | .error p => p.toBytes

/-! ## Decoding -/

/-- The loop of `ReadIntegral` with `k` bytes to go: `8 * (n - i - 1)` is
`8 * k` after the step.
mirrors udp/lib/Packet.cpp:299-308 -/
def readLoop : Nat → UInt16 → Bytes → Except TParsePacketError (UInt16 × Bytes)
  | 0, ret, packet => .ok (ret, packet)
  | _ + 1, _, [] => .error ⟨.undefined, ascii "Packet is too short"⟩
  | k + 1, ret, c :: packet =>
    readLoop k (ret ||| (signExtend c <<< UInt16.ofNat (8 * k))) packet

/-- `ReadIntegral<std::uint16_t>`, the only instance: the value and the view
that is left.
mirrors udp/lib/Packet.cpp:297-309 -/
def readIntegral (packet : Bytes) : Except TParsePacketError (UInt16 × Bytes) :=
  readLoop 2 0 packet

/-- The field and the view that is left. `findIdx` is the length when there
is no NUL, which is `min(size, npos)`.
mirrors udp/lib/Packet.cpp:311-316 -/
def readUntilZero (packet : Bytes) : Bytes × Bytes :=
  let pos := packet.findIdx (· == NUL)
  (packet.take pos, packet.drop (min packet.length (pos + 1)))

/-- `std::tolower` in the C locale; bytes from `0x80` on are left alone. -/
def toLowerChar (c : UInt8) : UInt8 := if 0x41 ≤ c ∧ c ≤ 0x5A then c + 0x20 else c

/-- mirrors udp/lib/Packet.cpp:318-326 -/
def toLower (container : Bytes) : Bytes := container.map toLowerChar

/-- `static_cast<TRequestPacket::EType>`; the caller has seen opcode 1 or 2. -/
def RequestType.ofCode (code : UInt16) : RequestType := if code = 1 then .read else .write

/-- mirrors udp/lib/Packet.cpp:328-349 -/
def parseRequest (packet : Bytes) : Except TParsePacketError TPacket := do
  let (type, s) ← readIntegral packet
  let (filename, s) := readUntilZero s
  let (modeStr, _) := readUntilZero s
  let mode ←
    if toLower modeStr = ascii "netascii" then .ok ETransferMode.netascii
    else if toLower modeStr = ascii "octet" then .ok ETransferMode.octet
    else .error ⟨.undefined, ascii "Illegal mode"⟩
  return .request ⟨.ofCode type, fromNetASCII filename, mode⟩

/-- mirrors udp/lib/Packet.cpp:351-354 -/
def parseData (packet : Bytes) : Except TParsePacketError TPacket := do
  let (blockID, packet) ← readIntegral packet
  return .data ⟨blockID, packet⟩

/-- mirrors udp/lib/Packet.cpp:356-358 -/
def parseAcknowledgement (packet : Bytes) : Except TParsePacketError TPacket := do
  let (blockID, _) ← readIntegral packet
  return .ack ⟨blockID⟩

/-- mirrors udp/lib/Packet.cpp:360-367 -/
def parseError (packet : Bytes) : Except TParsePacketError TPacket := do
  let (errCode, packet) ← readIntegral packet
  let (message, _) := readUntilZero packet
  return .error (.make errCode (fromNetASCII message))

/-- mirrors udp/lib/Packet.cpp:371-389 -/
def parsePacket (packet : Bytes) : Except TParsePacketError TPacket := do
  let (opcode, s) ← readIntegral packet
  match EOpcode.ofCode opcode with
  | some .rrq | some .wrq => parseRequest packet
  | some .data => parseData s
  | some .ack => parseAcknowledgement s
  | some .error => parseError s
  | none => .error ⟨.illegalOpcode, []⟩

/-! ## The two integer helpers -/

/-- The encoder keeps the low four bits of each byte. -/
theorem appendIntegral_eq (ret : Bytes) (v : UInt16) :
    appendIntegral ret v =
      ret ++ [UInt8.ofNat (v.toNat / 256 % 16), UInt8.ofNat (v.toNat % 16)] := by
  have low (w : UInt16) : (w &&& 0xf).toUInt8 = UInt8.ofNat (w.toNat % 16) := by
    apply UInt8.toNat_inj.mp
    have : (0xf : UInt16).toNat = 2 ^ 4 - 1 := rfl
    rw [UInt16.toNat_toUInt8, UInt16.toNat_and, this, Nat.and_two_pow_sub_one_eq_mod,
      UInt8.toNat_ofNat']
  simp [appendIntegral, List.range_succ, low, Nat.shiftRight_eq_div_pow]

/-- The decoder's value for two bytes. -/
def joinBytes (c d : UInt8) : UInt16 := (signExtend c <<< 8) ||| signExtend d

/-- What the wire format means by two bytes. -/
def bigEndian (c d : UInt8) : Nat := 256 * c.toNat + d.toNat

theorem readIntegral_two (c d : UInt8) (s : Bytes) :
    readIntegral (c :: d :: s) = .ok (joinBytes c d, s) := by
  simp [readIntegral, readLoop, joinBytes]

theorem readIntegral_short {s : Bytes} (h : s.length < 2) :
    readIntegral s = .error ⟨.undefined, ascii "Packet is too short"⟩ := by
  match s, h with
  | [], _ => rfl
  | [_], _ => rfl

/-- The sign extension of a second byte from `0x80` on sets the whole upper byte. -/
theorem joinBytes_toNat (c d : UInt8) :
    (joinBytes c d).toNat = if d.toNat < 128 then bigEndian c d else 0xff00 + d.toNat := by
  have hc := c.toNat_lt
  have hd := d.toNat_lt
  have hshift : (signExtend c <<< 8).toNat = c.toNat * 2 ^ 8 := by
    rw [UInt16.toNat_shiftLeft, signExtend_toNat]
    simp only [UInt16.reduceToNat, Nat.reduceMod, Nat.shiftLeft_eq]
    split <;> omega
  have hand (n : Nat) (hn : n < 256) : (c.toNat * 2 ^ 8) ||| n = c.toNat * 2 ^ 8 + n := by
    rw [Nat.mul_comm, ← Nat.two_pow_add_eq_or_of_lt hn]
  unfold joinBytes bigEndian
  rw [UInt16.toNat_or, hshift, signExtend_toNat]
  split
  · rw [hand _ hd]; omega
  · have hff : c.toNat * 2 ^ 8 ||| 0xff00 = 0xff00 := by
      have h : ∀ i : Fin 256, i.val * 2 ^ 8 ||| 0xff00 = 0xff00 := by decide +kernel
      exact h ⟨c.toNat, hc⟩
    have hor : d.toNat + 0xff00 = 0xff00 ||| d.toNat := by
      have := Nat.two_pow_add_eq_or_of_lt (i := 8) (b := d.toNat) (by simpa using hd) 0xff
      simp only [Nat.reducePow, Nat.reduceMul] at this
      rw [← this]; omega
    rw [hor, ← Nat.or_assoc, hff, ← hor, Nat.add_comm]

theorem joinBytes_low {c d : UInt8} (h : d.toNat < 128) :
    (joinBytes c d).toNat = bigEndian c d := by
  rw [joinBytes_toNat, if_pos h]

/-- The decoder reads the big-endian value exactly when the sign bit of the
second byte is clear or the first byte is `0xff` already. -/
theorem joinBytes_eq_iff (c d : UInt8) :
    (joinBytes c d).toNat = bigEndian c d ↔ d.toNat < 128 ∨ c.toNat = 255 := by
  have hc := c.toNat_lt
  rw [joinBytes_toNat]
  unfold bigEndian
  split <;> omega

/-- The two helpers composed. -/
theorem joinBytes_append (v : UInt16) :
    (joinBytes (UInt8.ofNat (v.toNat / 256 % 16)) (UInt8.ofNat (v.toNat % 16))).toNat =
      256 * (v.toNat / 256 % 16) + v.toNat % 16 := by
  have h1 : (UInt8.ofNat (v.toNat / 256 % 16)).toNat = v.toNat / 256 % 16 := by
    rw [UInt8.toNat_ofNat']; omega
  have h2 : (UInt8.ofNat (v.toNat % 16)).toNat = v.toNat % 16 := by
    rw [UInt8.toNat_ofNat']; omega
  rw [joinBytes_low (by omega), bigEndian, h1, h2]

/-! ## DATA and ACK: encode, then decode -/

theorem EOpcode.ofCode_eq_some {w : UInt16} {o : EOpcode} :
    EOpcode.ofCode w = some o ↔ w.toNat = o.code.toNat := by
  rw [UInt16.toNat_inj]
  constructor
  · intro h
    simpa [eq_comm] using List.find?_some h
  · rintro rfl
    cases o <;> rfl

/-- The opcode of a packet selects the parser, sign extension or not: a second
byte from `0x80` on is no opcode either way. -/
theorem ofCode_joinBytes {c d : UInt8} {o : EOpcode} :
    EOpcode.ofCode (joinBytes c d) = some o ↔ bigEndian c d = o.code.toNat := by
  have ho : o.code.toNat < 128 := by cases o <;> decide
  rw [EOpcode.ofCode_eq_some, joinBytes_toNat]
  split
  · rfl
  · unfold bigEndian; omega

theorem parsePacket_cons (c d : UInt8) (s : Bytes) :
    parsePacket (c :: d :: s) = match EOpcode.ofCode (joinBytes c d) with
      | some .rrq | some .wrq => parseRequest (c :: d :: s)
      | some .data => parseData s
      | some .ack => parseAcknowledgement s
      | some .error => parseError s
      | none => .error ⟨.illegalOpcode, []⟩ := by
  simp only [parsePacket, readIntegral_two]
  rfl

/-- A block ID whose two bytes are both below 16. -/
def LowNibbles (b : UInt16) : Prop := b.toNat / 256 < 16 ∧ b.toNat % 256 < 16

instance (b : UInt16) : Decidable (LowNibbles b) := inferInstanceAs (Decidable (_ ∧ _))

/-- The block ID that arrives when `b` was sent. -/
def received (b : UInt16) : UInt16 :=
  joinBytes (UInt8.ofNat (b.toNat / 256 % 16)) (UInt8.ofNat (b.toNat % 16))

theorem received_eq_iff (b : UInt16) : received b = b ↔ LowNibbles b := by
  have hb := b.toNat_lt
  rw [← UInt16.toNat_inj, received, joinBytes_append]
  unfold LowNibbles
  omega

theorem parsePacket_dataBytes (b : UInt16) (d : Bytes) :
    parsePacket (TDataPacket.toBytes ⟨b, d⟩) = .ok (.data ⟨received b, d⟩) := by
  simp only [TDataPacket.toBytes, appendIntegral_eq, EOpcode.code, List.nil_append, List.cons_append]
  rw [parsePacket_cons, (ofCode_joinBytes (o := .data)).mpr (by decide)]
  simp only [parseData, readIntegral_two]
  rfl

theorem parsePacket_ackBytes (b : UInt16) :
    parsePacket (TAcknowledgePacket.toBytes ⟨b⟩) = .ok (.ack ⟨received b⟩) := by
  simp only [TAcknowledgePacket.toBytes, appendIntegral_eq, EOpcode.code, List.nil_append,
    List.cons_append]
  rw [parsePacket_cons, (ofCode_joinBytes (o := .ack)).mpr (by decide)]
  simp only [parseAcknowledgement, readIntegral_two]
  rfl

/-- DATA and ACK with block ID `b` come back as they were sent. -/
def RoundTrips (b : UInt16) (d : Bytes) : Prop :=
  parsePacket (TDataPacket.toBytes ⟨b, d⟩) = .ok (.data ⟨b, d⟩) ∧
  parsePacket (TAcknowledgePacket.toBytes ⟨b⟩) = .ok (.ack ⟨b⟩)

/-- **Round trip.** The mask `0xf` of `AppendIntegral` loses the upper half
of each byte, so a DATA or ACK packet comes back exactly when there is
nothing to lose. -/
theorem data_ack_roundtrip_iff (b : UInt16) (d : Bytes) : RoundTrips b d ↔ LowNibbles b := by
  rw [← received_eq_iff, RoundTrips, parsePacket_dataBytes, parsePacket_ackBytes]
  simp

/-- Block 16 is acknowledged as block 0. -/
theorem block16_lost : ¬ ∀ b d, RoundTrips b d := by
  intro h
  have := (parsePacket_ackBytes 16).symm.trans (h 16 []).2
  exact absurd this (by decide)

end NetworksLab.L1.Packet
