import Mathlib.Data.List.Count
import NetworksLab.L1Encoding.WireFormat

/-!
# Requests and error packets: encode, then decode

Both carry a text, sent as NetASCII and ended by a NUL. NetASCII writes CR as
CR NUL, and the reader looks for the first NUL of the field: behind the first
CR of the text it finds the one that belongs to the CR. What it has then is the
text up to that CR, so the text is right only if the CR was its last byte; and
in a request the mode is read from where the text goes on.

Results:
* `field_plain`, `field_cut`: the field that is read back.
* `text_roundtrip_iff`: requests and error packets survive the round trip
  exactly when the text has no CR (at the end of an error message it may) and
  is not so long that `FromNetASCII`'s `int` overflows.
-/
namespace NetworksLab.L1.TextFields
open NetworksLab.L1.NetAscii NetworksLab.L1.Packet NetworksLab.L1.WireFormat

/-- The bytes of a text on the wire, up to the NUL that ends it; a CR counts
once because it can only be the last one. -/
def wireLength (s : Bytes) : Nat := s.length + s.count LF

theorem length_toNetASCII {x : Bytes} (h : CR ∉ x) : (toNetASCII x).length = wireLength x := by
  unfold wireLength
  induction x with
  | nil => rfl
  | cons c x ih =>
    rw [List.mem_cons, not_or] at h
    have hcr : c ≠ CR := fun he => h.1 he.symm
    have ih := ih h.2
    by_cases hlf : c = LF
    · rw [hlf, toNetASCII_cons_lf, List.count_cons_self]
      simp only [List.length_cons]
      omega
    · rw [toNetASCII_cons_other hlf hcr, List.count_cons_of_ne hlf]
      simp only [List.length_cons]
      omega

theorem wireLength_concat_cr (x : Bytes) : wireLength (x ++ [CR]) = wireLength x + 1 := by
  have : (x ++ [CR]).count LF = x.count LF := by
    rw [List.count_append, List.count_singleton, if_neg (by decide), Nat.add_zero]
  rw [wireLength, wireLength, this, List.length_append, List.length_singleton]
  omega

theorem nul_not_mem {x : Bytes} (hcr : CR ∉ x) (hnul : NUL ∉ x) : NUL ∉ toNetASCII x := by
  intro h
  obtain ⟨c, hc, hm⟩ := List.mem_flatMap.mp h
  have hne : c ≠ CR := fun he => hcr (he ▸ hc)
  rw [if_neg hne, List.append_nil, List.mem_append] at hm
  rcases hm with hm | hm
  · split at hm
    · exact absurd (List.mem_singleton.mp hm) (by decide)
    · cases hm
  · exact hnul (List.mem_singleton.mp hm ▸ hc)

/-! ## The field as it is read back -/

section
variable {x : Bytes} (hcr : CR ∉ x) (hnul : NUL ∉ x) (y t : Bytes)
include hcr hnul

/-- A text without a CR. -/
theorem field_plain : field (toNetASCII x ++ NUL :: t) = toNetASCII x ∧
    afterField (toNetASCII x ++ NUL :: t) = t := by
  rw [← Prod.mk.injEq, ← readUntil_nul]
  exact Cursor.readUntil_append_delim (nul_not_mem hcr hnul) t

/-- A text with a CR is cut behind it. -/
theorem field_cut : field (toNetASCII (x ++ CR :: y) ++ NUL :: t) = toNetASCII x ++ [CR] ∧
    afterField (toNetASCII (x ++ CR :: y) ++ NUL :: t) = toNetASCII y ++ NUL :: t := by
  have hsplit : toNetASCII (x ++ CR :: y) ++ NUL :: t =
      (toNetASCII x ++ [CR]) ++ NUL :: (toNetASCII y ++ NUL :: t) := by
    rw [toNetASCII_append, toNetASCII_cons_cr]
    simp
  have hnot : NUL ∉ toNetASCII x ++ [CR] := by
    rw [List.mem_append, not_or]
    exact ⟨nul_not_mem hcr hnul, by decide⟩
  rw [hsplit, ← Prod.mk.injEq, ← readUntil_nul]
  exact Cursor.readUntil_append_delim hnot _

end

theorem cut_concat (x : Bytes) : Cut x (toNetASCII x ++ [CR]) := ⟨x, List.prefix_rfl, .inr rfl⟩

theorem fromNetASCII_plain_iff {x : Bytes} (h : CR ∉ x) :
    fromNetASCII (toNetASCII x) = x ↔ wireLength x < 2 ^ 31 := by
  rw [← length_toNetASCII h]
  exact fromNetASCII_toNetASCII_iff x

theorem fromNetASCII_concat_iff {x : Bytes} (h : CR ∉ x) :
    fromNetASCII (toNetASCII x ++ [CR]) = x ++ [CR] ↔ wireLength (x ++ [CR]) < 2 ^ 31 := by
  have := fromNetASCII_eq_iff h (cut_concat x)
  rwa [fromLoop_append_cr, List.length_append, length_toNetASCII h, List.length_singleton,
    ← wireLength_concat_cr] at this

/-- What is read of a text does not go beyond its first CR. -/
theorem length_fromNetASCII_cut (x : Bytes) :
    (fromNetASCII (toNetASCII x ++ [CR])).length ≤ x.length + 1 :=
  ((cut_concat x).take _).length_fromLoop

/-- A text has no CR, or is cut at the first one. -/
theorem cr_cases (f : Bytes) : CR ∉ f ∨ ∃ x y, CR ∉ x ∧ f = x ++ CR :: y :=
  Cursor.mem_or_split CR f

/-! ## Requests -/

def RequestRoundTrips (p : TRequestPacket) : Prop := parsePacket p.toBytes = .ok (.request p)

theorem spells_transferMode {m m' : ETransferMode} : Spells (transferMode m) m' ↔ m = m' := by
  rw [← toLower_mode_iff]
  cases m <;> cases m' <;> decide

theorem not_spells_nil (m : ETransferMode) : ¬ Spells [] m := by
  rw [← toLower_mode_iff]
  cases m <;> decide

/-- The two fields of a request on the wire. -/
def requestFields (p : TRequestPacket) : Bytes :=
  toNetASCII p.filename ++ NUL :: (transferMode p.mode ++ [NUL])

/-- `ParseRequest` on what `ToBytes` wrote. -/
theorem parsePacket_request (p : TRequestPacket) :
    (∃ m, Spells (field (afterField (requestFields p))) m ∧ parsePacket p.toBytes =
      .ok (.request ⟨p.type, fromNetASCII (field (requestFields p)), m⟩)) ∨
    ((∀ m, ¬ Spells (field (afterField (requestFields p))) m) ∧ ∃ e, parsePacket p.toBytes = .error e) := by
  have hbytes : p.toBytes = 0 :: p.type.code.toUInt8 :: requestFields p := by
    rw [TRequestPacket.toBytes, appendIntegral_eq, requestFields]
    cases p.type <;> simp <;> decide
  have hparse : parsePacket p.toBytes = parseRequest (0 :: p.type.code.toUInt8 :: requestFields p) := by
    rw [hbytes, parsePacket_cons]
    cases p.type <;> rfl
  have htype : RequestType.ofCode (joinBytes 0 p.type.code.toUInt8) = p.type := by
    cases p.type <;> decide
  have hmode : modeField (0 :: p.type.code.toUInt8 :: requestFields p) =
      field (afterField (requestFields p)) := rfl
  rw [hparse]
  rcases parseRequest_cases (c := 0) (d := p.type.code.toUInt8) (s := requestFields p) with
    ⟨m, hm, h⟩ | ⟨hm, h⟩
  · exact .inl ⟨m, hm, by rw [h, htype]⟩
  · exact .inr ⟨hm, _, h⟩

theorem request_roundtrip_iff {p : TRequestPacket} (hnul : NUL ∉ p.filename) :
    RequestRoundTrips p ↔ CR ∉ p.filename ∧ wireLength p.filename < 2 ^ 31 := by
  unfold RequestRoundTrips
  rcases cr_cases p.filename with hcr | ⟨x, y, hcr, hf⟩
  · obtain ⟨hfield, hafter⟩ := field_plain hcr hnul (transferMode p.mode ++ [NUL])
    have hmode : field (transferMode p.mode ++ [NUL]) = transferMode p.mode := by
      cases p.mode <;> decide
    have hcases := parsePacket_request p
    rw [requestFields, hfield, hafter, hmode] at hcases
    rw [and_iff_right hcr, ← fromNetASCII_plain_iff hcr]
    rcases hcases with ⟨m, hm, h⟩ | ⟨hm, -⟩
    · obtain rfl := spells_transferMode.mp hm
      rw [h]
      constructor
      · intro he
        injection he with he; injection he with he
        exact congrArg TRequestPacket.filename he
      · intro he
        rw [he]
    · exact absurd (spells_transferMode.mpr rfl) (hm p.mode)
  · refine iff_of_false (fun h => ?_) (fun h => h.1 (hf ▸ List.mem_append_right x List.mem_cons_self))
    have hx : NUL ∉ x := fun hm => hnul (hf ▸ List.mem_append_left _ hm)
    obtain ⟨hfield, hafter⟩ := field_cut hcr hx y (transferMode p.mode ++ [NUL])
    have hcases := parsePacket_request p
    rw [requestFields, hf, hfield, hafter] at hcases
    rcases hcases with ⟨m, hm, he⟩ | ⟨-, e, he⟩
    · rw [h] at he
      injection he with he; injection he with he
      have hname : x ++ CR :: y = fromNetASCII (toNetASCII x ++ [CR]) :=
        hf.symm.trans (congrArg TRequestPacket.filename he)
      have hlen := length_fromNetASCII_cut x
      rw [← hname, List.length_append, List.length_cons] at hlen
      obtain rfl := List.eq_nil_of_length_eq_zero (show y.length = 0 by omega)
      exact not_spells_nil m hm
    · rw [h] at he
      cases he

/-! ## Error packets -/

def ErrorRoundTrips (type : ErrorType) (m : Bytes) : Prop :=
  parsePacket (TErrorPacket.make type m).toBytes = .ok (.error (.make type m))

/-- The default messages are plain and short. -/
theorem defaultErrorMessage_plain (type : ErrorType) : CR ∉ defaultErrorMessage type ∧
    NUL ∉ defaultErrorMessage type ∧ wireLength (defaultErrorMessage type) < 2 ^ 31 := by
  unfold defaultErrorMessage
  split_ifs <;> decide +kernel

/-- `ParseError` on what `ToBytes` wrote. -/
theorem parsePacket_errorBytes {type : ErrorType} (ht : LowNibbles type) (M : Bytes) :
    parsePacket (TErrorPacket.toBytes ⟨type, M⟩) =
      .ok (.error (.make type (fromNetASCII (field (toNetASCII M ++ [NUL]))))) := by
  have hcode := (received_eq_iff type).mpr ht
  rw [TErrorPacket.toBytes, appendIntegral_eq, appendIntegral_eq]
  simp only [EOpcode.code, List.nil_append, List.cons_append]
  rw [parsePacket_cons, (ofCode_joinBytes (o := .error)).mpr (by decide)]
  simp only [parseError_two]
  rw [← received, hcode]

/-- The constructor keeps a message that is not empty. -/
theorem make_eq_iff {type : ErrorType} {m F : Bytes} (hm : m ≠ []) :
    TErrorPacket.make type F = .make type m ↔ F = m ∨ F = [] ∧ m = defaultErrorMessage type := by
  unfold TErrorPacket.make
  rw [if_neg hm, TErrorPacket.mk.injEq, and_iff_right rfl]
  split
  · rename_i hF
    subst hF
    constructor
    · exact fun h => .inr ⟨rfl, h.symm⟩
    · rintro (h | h)
      · exact absurd h.symm hm
      · exact h.2.symm
  · rename_i hF
    constructor
    · exact .inl
    · rintro (h | h)
      · exact h
      · exact absurd h.1 hF

/-- A message that is sent as `w` and comes back as `F`. -/
theorem message_iff {type : ErrorType} {m F : Bytes} (hm : m ≠ []) (hF : F = m ↔ wireLength m < 2 ^ 31) :
    TErrorPacket.make type F = .make type m ↔ wireLength m < 2 ^ 31 := by
  rw [make_eq_iff hm, hF, or_iff_left_iff_imp]
  rintro ⟨-, rfl⟩
  exact (defaultErrorMessage_plain type).2.2

theorem error_roundtrip_iff {type : ErrorType} {m : Bytes} (ht : LowNibbles type) (hnul : NUL ∉ m) :
    ErrorRoundTrips type m ↔ CR ∉ m.dropLast ∧ wireLength m < 2 ^ 31 := by
  have hround : ErrorRoundTrips type m ↔ TErrorPacket.make type
      (fromNetASCII (field (toNetASCII (TErrorPacket.make type m).message ++ [NUL]))) = .make type m := by
    unfold ErrorRoundTrips
    rw [show TErrorPacket.make type m = ⟨type, (TErrorPacket.make type m).message⟩ from rfl,
      parsePacket_errorBytes ht]
    constructor
    · intro h
      injection h with h; injection h
    · intro h
      rw [h]
  rw [hround]
  by_cases hm : m = []
  · obtain ⟨hcr, hnul', hlen⟩ := defaultErrorMessage_plain type
    subst hm
    refine iff_of_true ?_ ⟨by decide, by decide⟩
    have hmsg : (TErrorPacket.make type []).message = defaultErrorMessage type := rfl
    rw [hmsg, (field_plain hcr hnul' []).1, (fromNetASCII_plain_iff hcr).mpr hlen]
    rw [TErrorPacket.make, ite_self]
    rfl
  · have hmsg : (TErrorPacket.make type m).message = m := if_neg hm
    rw [hmsg]
    rcases cr_cases m with hcr | ⟨x, y, hcr, rfl⟩
    · have hlast : CR ∉ m.dropLast := fun h => hcr (List.dropLast_subset _ h)
      rw [(field_plain hcr hnul []).1, and_iff_right hlast]
      exact message_iff hm (fromNetASCII_plain_iff hcr)
    · have hx : NUL ∉ x := fun h => hnul (List.mem_append_left _ h)
      rw [(field_cut hcr hx y []).1]
      by_cases hy : y = []
      · subst hy
        rw [List.dropLast_concat, and_iff_right hcr]
        exact message_iff hm (fromNetASCII_concat_iff hcr)
      · refine iff_of_false (fun h => ?_) (fun h => h.1 ?_)
        · rcases (make_eq_iff hm).mp h with h | ⟨-, h⟩
          · have hlen := length_fromNetASCII_cut x
            have hpos := List.length_pos_of_ne_nil hy
            rw [h, List.length_append, List.length_cons] at hlen
            omega
          · exact (defaultErrorMessage_plain type).1 (h ▸ List.mem_append_right x List.mem_cons_self)
        · rw [List.dropLast_append_of_ne_nil (List.cons_ne_nil _ _), List.dropLast_cons_of_ne_nil hy]
          exact List.mem_append_right x List.mem_cons_self

/-! ## Both kinds -/

/-- **Round trip.** For every NUL-free text, the requests with it as filename and
the error packets with it as message come back as they were sent exactly when
`FromNetASCII` can count its bytes and no CR is in it, but for one at the end of
an error message. -/
theorem text_roundtrip_iff (text : Bytes) (hnul : NUL ∉ text) :
    (∀ type mode, RequestRoundTrips ⟨type, text, mode⟩ ↔ CR ∉ text ∧ wireLength text < 2 ^ 31) ∧
    (∀ type : ErrorType, type.toNat ≤ 7 →
      (ErrorRoundTrips type text ↔ CR ∉ text.dropLast ∧ wireLength text < 2 ^ 31)) := by
  refine ⟨fun type mode => request_roundtrip_iff hnul, fun type ht => error_roundtrip_iff ?_ hnul⟩
  unfold LowNibbles
  omega

/-- A line feed goes through. -/
theorem text_roundtrip_iff_lf : RequestRoundTrips ⟨.read, ascii "a\nb", .octet⟩ ∧
    ErrorRoundTrips .undefined (ascii "a\nb") := by
  obtain ⟨hrequest, herror⟩ := text_roundtrip_iff (ascii "a\nb") (by decide)
  exact ⟨(hrequest .read .octet).mpr (by decide), (herror .undefined (by decide)).mpr (by decide)⟩

/-- The file name goes on behind a CR: its rest is taken for the mode. -/
theorem cr_filename_lost : ¬ ((∀ p : TRequestPacket, NUL ∉ p.filename → RequestRoundTrips p) ∧
    ∀ (type : ErrorType) (m : Bytes), type.toNat ≤ 7 → NUL ∉ m → ErrorRoundTrips type m) := by
  rintro ⟨h, -⟩
  have hparse : parsePacket (TRequestPacket.toBytes ⟨.read, ascii "a\rb", .octet⟩) =
      .error ⟨.undefined, ascii "Illegal mode"⟩ := by decide
  have := h ⟨.read, ascii "a\rb", .octet⟩ (by decide)
  rw [RequestRoundTrips, hparse] at this
  cases this

end NetworksLab.L1.TextFields
