import NetworksLab.Core.Cursor
import NetworksLab.L1Encoding.Packet

/-!
# The TFTP wire format, and what `ParsePacket` makes of it

`Malformed` and `Decodes` state the format in its own terms (big-endian
words, NUL-ended fields, the two mode names in any letter case); nothing in
them is the parser's. `Exact s` says that `parsePacket` rejects `s` exactly
when it is malformed and otherwise yields the packet `s` stands for.

Results:
* `parsePacket_error_iff`: the rejected strings are the malformed ones, for
  every byte string.
* `parsePacket_exact_iff`: the decoded packet is right too unless a DATA,
  ACK or ERROR packet has a fourth byte from `0x80` on behind a third byte
  other than `0xff` (`SignSafe`).
-/
namespace NetworksLab.L1.WireFormat
open NetworksLab.L1.NetAscii NetworksLab.L1.Packet

/-! ## The format -/

/-- The big-endian word at offset `i`. -/
def wordAt (s : Bytes) (i : Nat) : Nat := bigEndian (s.getD i 0) (s.getD (i + 1) 0)

def opcode (s : Bytes) : Nat := wordAt s 0

/-- A field: up to the next NUL or the end. -/
def field (s : Bytes) : Bytes := s.takeWhile (· != NUL)

def afterField (s : Bytes) : Bytes := (s.dropWhile (· != NUL)).drop 1

/-- `f` is the name of mode `m`, in any letter case: each byte is the letter or
its upper-case form, `0x20` below. -/
def Spells (f : Bytes) (m : ETransferMode) : Prop :=
  List.Forall₂ (fun c l => c = l ∨ c + 0x20 = l) f (transferMode m)

/-- The second field after the opcode. -/
def modeField (s : Bytes) : Bytes := field (afterField (s.drop 2))

def Malformed (s : Bytes) : Prop :=
  s.length < 2 ∨ ¬ (1 ≤ opcode s ∧ opcode s ≤ 5) ∨
  (3 ≤ opcode s ∧ opcode s ≤ 5 ∧ s.length < 4) ∨
  (1 ≤ opcode s ∧ opcode s ≤ 2 ∧ ∀ m, ¬ Spells (modeField s) m)

/-- `s` stands for the packet. -/
def Decodes (s : Bytes) : TPacket → Prop
  | .request p =>
    opcode s = p.type.code.toNat ∧ p.filename = fromNetASCII (field (s.drop 2)) ∧
    Spells (modeField s) p.mode
  | .data p => opcode s = 3 ∧ p.blockID.toNat = wordAt s 2 ∧ p.data = s.drop 4
  | .ack p => opcode s = 4 ∧ p.blockID.toNat = wordAt s 2
  | .error p =>
    opcode s = 5 ∧ p.type.toNat = wordAt s 2 ∧
    p = .make p.type (fromNetASCII (field (s.drop 4)))

/-- `parsePacket` treats `s` as the format says. -/
def Exact (s : Bytes) : Prop :=
  ((∃ e, parsePacket s = .error e) ↔ Malformed s) ∧
  (¬ Malformed s → ∃ p, parsePacket s = .ok p ∧ Decodes s p)

/-! ## Fields and modes as the parser reads them -/

theorem readUntil_nul (s : Bytes) : Cursor.readUntil NUL s = (field s, afterField s) := by
  have hne : (fun c : UInt8 => decide (c ≠ NUL)) = (· != NUL) := by
    funext c
    by_cases h : c = NUL <;> simp [h]
  rw [Cursor.readUntil, hne, field, afterField]

theorem readUntilZero_eq (s : Bytes) : readUntilZero s = (field s, afterField s) := by
  rw [← readUntil_nul, Cursor.readUntil_eq_findIdx, readUntilZero]
  congr 1
  rcases Nat.le_total s.length (s.findIdx (· == NUL) + 1) with h | h
  · rw [Nat.min_eq_left h, List.drop_length, List.drop_eq_nil_of_le h]
  · rw [Nat.min_eq_right h]

/-- The lower-case letters. -/
def Lower (l : UInt8) : Prop := 0x61 ≤ l.toNat ∧ l.toNat ≤ 0x7A

theorem toLowerChar_eq_iff (c : UInt8) {l : UInt8} (hl : Lower l) :
    toLowerChar c = l ↔ c = l ∨ c + 0x20 = l := by
  have hc := c.toNat_lt
  obtain ⟨h1, h2⟩ := hl
  unfold toLowerChar
  simp only [← UInt8.toNat_inj, UInt8.le_iff_toNat_le, UInt8.toNat_add, UInt8.reduceToNat]
  split
  · rw [UInt8.toNat_add]; simp only [UInt8.reduceToNat]; omega
  · omega

theorem toLower_eq_iff (f : Bytes) : ∀ {w : Bytes}, (∀ l ∈ w, Lower l) →
    (toLower f = w ↔ List.Forall₂ (fun c l => c = l ∨ c + 0x20 = l) f w) := by
  induction f with
  | nil =>
    intro w _
    cases w with
    | nil => simp [toLower]
    | cons l w => exact ⟨fun h => (nomatch h), fun h => (nomatch h)⟩
  | cons c f ih =>
    intro w hw
    cases w with
    | nil => exact ⟨fun h => (nomatch h), fun h => (nomatch h)⟩
    | cons l w =>
      have hl := hw l List.mem_cons_self
      have ih' := ih fun l' h => hw l' (List.mem_cons_of_mem _ h)
      simp only [toLower] at ih'
      simp [toLower, toLowerChar_eq_iff c hl, ih']

theorem transferMode_lower (m : ETransferMode) : ∀ l ∈ transferMode m, Lower l := by
  unfold Lower
  cases m <;> decide +kernel

theorem toLower_mode_iff (f : Bytes) (m : ETransferMode) :
    toLower f = transferMode m ↔ Spells f m :=
  toLower_eq_iff f (transferMode_lower m)

/-! ## One parser at a time -/

variable {c d e f : UInt8} {s : Bytes}

theorem opcode_cons : opcode (c :: d :: s) = bigEndian c d := rfl

theorem wordAt_two : wordAt (c :: d :: e :: f :: s) 2 = bigEndian e f := rfl

/-- A request is accepted exactly when its mode field spells a mode. -/
theorem parseRequest_cases :
    (∃ m, Spells (modeField (c :: d :: s)) m ∧ parseRequest (c :: d :: s) =
      .ok (.request ⟨.ofCode (joinBytes c d), fromNetASCII (field s), m⟩)) ∨
    ((∀ m, ¬ Spells (modeField (c :: d :: s)) m) ∧
      parseRequest (c :: d :: s) = .error ⟨.undefined, ascii "Illegal mode"⟩) := by
  have hp : parseRequest (c :: d :: s) = (do
      let mode ←
        if toLower (modeField (c :: d :: s)) = transferMode .netascii then .ok ETransferMode.netascii
        else if toLower (modeField (c :: d :: s)) = transferMode .octet then .ok ETransferMode.octet
        else .error ⟨.undefined, ascii "Illegal mode"⟩
      return .request ⟨.ofCode (joinBytes c d), fromNetASCII (field s), mode⟩) := by
    simp only [parseRequest, readIntegral_two, readUntilZero_eq]
    rfl
  rw [hp]
  by_cases h1 : Spells (modeField (c :: d :: s)) .netascii
  · exact .inl ⟨.netascii, h1, by rw [if_pos ((toLower_mode_iff _ _).mpr h1)]; rfl⟩
  have h1' := mt (toLower_mode_iff _ _).mp h1
  by_cases h2 : Spells (modeField (c :: d :: s)) .octet
  · exact .inl ⟨.octet, h2, by rw [if_neg h1', if_pos ((toLower_mode_iff _ _).mpr h2)]; rfl⟩
  have h2' := mt (toLower_mode_iff _ _).mp h2
  refine .inr ⟨?_, by rw [if_neg h1', if_neg h2']; rfl⟩
  intro m
  cases m with
  | netascii => exact h1
  | octet => exact h2

theorem parseData_two : parseData (e :: f :: s) = .ok (.data ⟨joinBytes e f, s⟩) := by
  simp only [parseData, readIntegral_two]; rfl

theorem parseAcknowledgement_two : parseAcknowledgement (e :: f :: s) = .ok (.ack ⟨joinBytes e f⟩) := by
  simp only [parseAcknowledgement, readIntegral_two]; rfl

theorem parseError_two : parseError (e :: f :: s) =
    .ok (.error (.make (joinBytes e f) (fromNetASCII (field s)))) := by
  simp only [parseError, readIntegral_two, readUntilZero_eq]; rfl

def tooShort : TParsePacketError := ⟨.undefined, ascii "Packet is too short"⟩

theorem parse_short (h : s.length < 2) :
    parseData s = .error tooShort ∧ parseAcknowledgement s = .error tooShort ∧
    parseError s = .error tooShort := by
  refine ⟨?_, ?_, ?_⟩
  · simp only [parseData, readIntegral_short h]; rfl
  · simp only [parseAcknowledgement, readIntegral_short h]; rfl
  · simp only [parseError, readIntegral_short h]; rfl

/-! ## All packets -/

/-- The sign of the fourth byte does no harm: there is no two-byte integer
there, or its second byte is below `0x80`, or its first byte is `0xff`. -/
def SignSafe (s : Bytes) : Prop :=
  s.length < 4 ∨ ¬ (3 ≤ opcode s ∧ opcode s ≤ 5) ∨ (s.getD 3 0).toNat < 128 ∨
    (s.getD 2 0).toNat = 255

instance (s : Bytes) : Decidable (SignSafe s) := inferInstanceAs (Decidable (_ ∨ _))

/-- What `parsePacket` does with `s`: reject a malformed string, or yield a
packet that is the right one exactly when `s` is sign-safe. -/
def Treated (s : Bytes) : Prop :=
  (Malformed s ∧ ∃ e, parsePacket s = .error e) ∨
  (¬ Malformed s ∧ ∃ p, parsePacket s = .ok p ∧ (Decodes s p ↔ SignSafe s))

theorem EOpcode.exists_code {n : Nat} (h1 : 1 ≤ n) (h5 : n ≤ 5) : ∃ o : EOpcode, n = o.code.toNat := by
  obtain rfl | rfl | rfl | rfl | rfl : n = 1 ∨ n = 2 ∨ n = 3 ∨ n = 4 ∨ n = 5 := by omega
  exacts [⟨.rrq, rfl⟩, ⟨.wrq, rfl⟩, ⟨.data, rfl⟩, ⟨.ack, rfl⟩, ⟨.error, rfl⟩]

theorem treated_request {o : EOpcode} {t : RequestType} (ho : EOpcode.ofCode (joinBytes c d) = some o)
    (ht : o.code = t.code) (hp : parsePacket (c :: d :: s) = parseRequest (c :: d :: s)) :
    Treated (c :: d :: s) := by
  have hop : opcode (c :: d :: s) = t.code.toNat := by
    rw [opcode_cons, ofCode_joinBytes.mp ho, ht]
  have hrange : 1 ≤ opcode (c :: d :: s) ∧ opcode (c :: d :: s) ≤ 2 := by
    rw [hop]; cases t <;> decide
  have htype : RequestType.ofCode (joinBytes c d) = t := by
    have hw : joinBytes c d = t.code := by
      rw [← ht, ← UInt16.toNat_inj]; exact EOpcode.ofCode_eq_some.mp ho
    rw [hw]; cases t <;> rfl
  have hmal : Malformed (c :: d :: s) ↔ ∀ m, ¬ Spells (modeField (c :: d :: s)) m := by
    unfold Malformed
    constructor
    · rintro (h | h | h | h)
      · simp only [List.length_cons] at h; omega
      · omega
      · omega
      · exact h.2.2
    · exact fun h => .inr (.inr (.inr ⟨hrange.1, hrange.2, h⟩))
  rcases parseRequest_cases (c := c) (d := d) (s := s) with ⟨m, hm, he⟩ | ⟨hm, he⟩
  · refine .inr ⟨fun h => hmal.mp h m hm, _, hp.trans he, ?_⟩
    have hs : SignSafe (c :: d :: s) := by unfold SignSafe; omega
    have hd : (c :: d :: s).drop 2 = s := by simp only [List.drop_succ_cons, List.drop_zero]
    exact iff_of_true ⟨by rw [hop, htype], by rw [hd], hm⟩ hs
  · exact .inl ⟨hmal.mpr hm, _, hp.trans he⟩

/-- A DATA, ACK or ERROR packet: too short, or decoded with the block ID or
code that `joinBytes` reads. -/
theorem treated_numbered {o : EOpcode} {f : UInt16 → Bytes → TPacket}
    {parse : Bytes → Except TParsePacketError TPacket}
    (ho : EOpcode.ofCode (joinBytes c d) = some o) (h3 : 3 ≤ o.code.toNat) (h5 : o.code.toNat ≤ 5)
    (hp : parsePacket (c :: d :: s) = parse s)
    (hshort : s.length < 2 → parse s = .error tooShort)
    (hlong : ∀ e g t, parse (e :: g :: t) = .ok (f (joinBytes e g) t))
    (hdec : ∀ e g t, Decodes (c :: d :: e :: g :: t) (f (joinBytes e g) t) ↔
      (joinBytes e g).toNat = bigEndian e g) : Treated (c :: d :: s) := by
  have hop : opcode (c :: d :: s) = o.code.toNat := ofCode_joinBytes.mp ho
  match s, hp, hshort with
  | [], hp, hshort =>
    exact .inl ⟨.inr (.inr (.inl ⟨by omega, by omega, by simp⟩)), _, hp.trans (hshort (by simp))⟩
  | [_], hp, hshort =>
    exact .inl ⟨.inr (.inr (.inl ⟨by omega, by omega, by simp⟩)), _, hp.trans (hshort (by simp))⟩
  | e :: g :: t, hp, _ =>
    refine .inr ⟨?_, _, hp.trans (hlong e g t), ?_⟩
    · rintro (h | h | h | h)
      · simp only [List.length_cons] at h; omega
      · omega
      · simp only [List.length_cons] at h; omega
      · omega
    · rw [hdec, joinBytes_eq_iff]
      have hlen : ¬ (c :: d :: e :: g :: t).length < 4 := by simp
      unfold SignSafe
      rw [hop]
      simp only [List.getD_cons_succ, List.getD_cons_zero]
      omega

theorem parsePacket_treated (s : Bytes) : Treated s := by
  match s with
  | [] => exact .inl ⟨.inl (by simp), _, rfl⟩
  | [_] => exact .inl ⟨.inl (by simp), _, rfl⟩
  | c :: d :: s =>
    have hp := parsePacket_cons c d s
    cases ho : EOpcode.ofCode (joinBytes c d) with
    | none =>
      rw [ho] at hp
      refine .inl ⟨.inr (.inl ?_), _, hp⟩
      rintro ⟨h1, h5⟩
      obtain ⟨o, hcode⟩ := EOpcode.exists_code h1 h5
      rw [ofCode_joinBytes.mpr (opcode_cons.symm.trans hcode)] at ho
      cases ho
    | some o =>
      rw [ho] at hp
      cases o with
      | rrq => exact treated_request (t := .read) ho rfl hp
      | wrq => exact treated_request (t := .write) ho rfl hp
      | data =>
        refine treated_numbered (f := fun b t => .data ⟨b, t⟩) ho (by decide) (by decide) hp
          (fun h => (parse_short h).1) (fun e g t => parseData_two) fun e g t => ?_
        have hop : opcode (c :: d :: e :: g :: t) = 3 := ofCode_joinBytes.mp ho
        simp [Decodes, hop, wordAt_two]
      | ack =>
        refine treated_numbered (f := fun b _ => .ack ⟨b⟩) ho (by decide) (by decide) hp
          (fun h => (parse_short h).2.1) (fun e g t => parseAcknowledgement_two) fun e g t => ?_
        have hop : opcode (c :: d :: e :: g :: t) = 4 := ofCode_joinBytes.mp ho
        simp [Decodes, hop, wordAt_two]
      | error =>
        refine treated_numbered (f := fun b t => .error (.make b (fromNetASCII (field t)))) ho
          (by decide) (by decide) hp (fun h => (parse_short h).2.2) (fun e g t => parseError_two)
          fun e g t => ?_
        have hop : opcode (c :: d :: e :: g :: t) = 5 := ofCode_joinBytes.mp ho
        simp [Decodes, hop, wordAt_two, TErrorPacket.make]

/-- `ParsePacket` throws exactly on the malformed strings. -/
theorem parsePacket_error_iff (s : Bytes) : (∃ e, parsePacket s = .error e) ↔ Malformed s := by
  rcases parsePacket_treated s with ⟨hm, he⟩ | ⟨hm, p, hp, -⟩
  · exact iff_of_true he hm
  · refine iff_of_false ?_ hm
    rintro ⟨e, he⟩
    rw [hp] at he; cases he

/-- **The parser against the format.** -/
theorem parsePacket_exact_iff (s : Bytes) : Exact s ↔ SignSafe s := by
  unfold Exact
  rw [and_iff_right (parsePacket_error_iff s)]
  rcases parsePacket_treated s with ⟨hm, -⟩ | ⟨hm, p, hp, hd⟩
  · refine iff_of_true (fun h => absurd hm h) ?_
    unfold SignSafe
    rcases hm with h | h | h | h <;> omega
  · rw [← hd]
    constructor
    · intro h
      obtain ⟨q, hq, hdq⟩ := h hm
      rw [hp] at hq
      cases hq; exact hdq
    · exact fun h _ => ⟨p, hp, h⟩

/-- ACK of block 128 is read as block 65408. -/
theorem ack128_misread : ¬ ∀ s, Exact s := by
  intro h
  have hm : ¬ Malformed [0x00, 0x04, 0x00, 0x80] := by
    rintro (hm | hm | hm | ⟨-, hm, -⟩) <;> exact absurd hm (by decide)
  obtain ⟨p, hp, hd⟩ := (h [0x00, 0x04, 0x00, 0x80]).2 hm
  have hp' : parsePacket [0x00, 0x04, 0x00, 0x80] = .ok (.ack ⟨65408⟩) := by decide
  rw [hp', Except.ok.injEq] at hp
  subst hp
  exact absurd hd.2 (by decide)

end NetworksLab.L1.WireFormat
