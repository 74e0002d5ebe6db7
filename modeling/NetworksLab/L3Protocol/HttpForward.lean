import Mathlib.Data.Set.Basic
import NetworksLab.L3Protocol.Compress

/-!
# Messages that are passed on (`individual/lib/HTTP.cpp`, `Compress.cpp`)

What a parser has made of a message is written again for the next hop, with the
headers as they came: `DataLength` takes the last `Content-Length`, as far as it
is a number, and none as 0, and the others stay.

Results:
* `forwarded_reads`: a response that was parsed, chunked or not, is read again
  from what is written of it, compressed or not.
* `lengths_agree_iff`: when every `Content-Length` in a message is the length of
  its data.
-/
namespace NetworksLab.L3.Http
open NetworksLab.Incremental
open NetworksLab.Numeral (decimal Spells)

/-! ## To the client -/

theorem lines_fine {lines : List Bytes} (hlines : ∀ x ∈ lines, HeaderLine x) :
    ∀ h ∈ lines.map parseHeader, h.Fine := by
  intro h hh
  obtain ⟨x, hx, rfl⟩ := List.mem_map.mp hh
  exact parseHeader_fine (hlines x hx)

theorem THttpResponse.Text.framed {r : THttpResponse} {lines : List Bytes} {b : Bytes}
    (h : r.Text lines b) : r.Framed where
  line := h.line
  headers := by
    rw [h.headers]
    exact lines_fine h.headerLine
  plain hc := by
    have hcons : r.headers.Consistent := h.headers ▸ THttpHeaders.make_consistent _
    rw [← isChunked_iff hcons, h.plain] at hc
    cases hc
  length := h.length

theorem not_hasChunked_remove (hs : THttpHeaders) : ¬ HasChunked (hs.remove transferEncoding).headers := by
  rintro ⟨x, hx, -⟩
  have hnone := THttpHeaders.first_eq_none.mpr fun h (hh : h ∈ (hs.remove transferEncoding).headers) =>
    (THttpHeaders.mem_remove.mp hh).2
  rw [hnone] at hx
  cases hx

open THttpResponseParser in
/-- What a parser has completed is framed. -/
theorem parsed_framed {b : Bytes} {p : THttpResponseParser} (h : Completes consume make b p)
    (hmax : p.parsed.data.length < 2 ^ 31) : p.parsed.Framed := by
  obtain ⟨lines, hlines, hheaders, hline, htext⟩ := accepted h
  cases hc : p.chunked with
  | false => exact (htext hc).framed
  | true =>
    have hdec := parsed_decoded hc
    have hparsed := parsed_chunked hc
    refine ⟨hline, fun h hh => ?_, ?_, ?_⟩
    · rw [hparsed] at hh
      rcases THttpHeaders.mem_of_mem_update (THttpHeaders.mem_remove.mp hh).1 with rfl | hh
      · exact lengthHeader_fine _
      · rw [hheaders] at hh
        exact lines_fine hlines h hh
    · rw [hparsed]
      exact not_hasChunked_remove _
    · rw [hdec.data] at hmax ⊢
      rw [dataLength_of_forall ⟨_, hdec.lengthListed.1, rfl⟩ hdec.lengthListed.2]
      exact lengthOf_decimal hmax

open THttpResponseParser in
/-- **What is passed on frames itself.** For every stream that a new parser
completes, and every compressor: the response and the compressed response are
each read again as they were written, with the last byte and not before. -/
theorem forwarded_reads (gzip : Bytes → Bytes) {b : Bytes} {p : THttpResponseParser}
    (h : Completes consume make b p) (hmax : p.parsed.data.length < 2 ^ 31) :
    p.parsed.Reads ∧ ((gzip p.parsed.data).length < 2 ^ 31 → (compress gzip p.parsed).Reads) :=
  ⟨(parsed_framed h hmax).reads, fun hgzip => (compress_framed gzip (parsed_framed h hmax) hgzip).reads⟩

/-- `hi` and its CRLF, compressed. -/
def hiGzip : Bytes :=
  [0x1F, 0x8B, 0x08, 0x00, 0x00, 0x00, 0x00, 0x00, 0x00, 0xFF, 0xCB, 0xC8, 0xE4, 0xE5, 0x02, 0x00,
    0x0C, 0x67, 0xAB, 0xCD, 0x04, 0x00, 0x00, 0x00]

theorem forwarded_reads_hi : ∃ p, Completes THttpResponseParser.consume .make
      (chunkedResponse okLine [chunkedHeader] [hiChunk]) p ∧
    p.parsed.Reads ∧ (compress (fun _ => hiGzip) p.parsed).Reads := by
  obtain ⟨p, hp, -, hchunked, hdata⟩ :=
    THttpResponseParser.body_completes okLine [chunkedHeader] [hiChunk]
  have hrun := (head_awaits okLine_fine chunkedHeader_fine chunkedHeader_chunked.isChunked).completes hp
  have hmax : p.parsed.data.length < 2 ^ 31 := by
    rw [(parsed_decoded hchunked).data, hdata]
    decide
  obtain ⟨h1, h2⟩ := forwarded_reads (fun _ => hiGzip) hrun hmax
  exact ⟨p, hrun, h1, h2 (by decide)⟩

/-! ## To the next hop -/

section
variable (names : Set Bytes)

/-- Every header with one of the `names` is a plain decimal numeral for the
length of the data. -/
def LengthsAgree (headers : List THttpHeader) (data : Bytes) : Prop :=
  ∀ h ∈ headers, h.key ∈ names → Spells 10 h.value data.length

/-- The lines with one of the `names` spell one number, which is an `int`. One
of them has the name that the parsers know, unless there are none or the number
is 0. -/
def OneLength (b : Bytes) : Prop :=
  ∃ n : Nat, n < 2 ^ 31 ∧
    (∀ x ∈ headerLines b, (parseHeader x).key ∈ names → Spells 10 (parseHeader x).value n) ∧
    ((∃ x ∈ headerLines b, (parseHeader x).key = contentLength) ∨ n = 0 ∨
      ∀ x ∈ headerLines b, (parseHeader x).key ∉ names)

theorem lengthOf_spells {value : Bytes} {n : Nat} (h : Spells 10 value n) (hn : n < 2 ^ 31) :
    lengthOf value = n := by
  rw [lengthOf, intFromChars_spells h hn]

variable {names} (hnames : contentLength ∈ names)
include hnames

/-- Read off from the header lines. -/
theorem lengthsAgree_iff {b data : Bytes} {headers : THttpHeaders}
    (hheaders : headers.headers = (headerLines b).map parseHeader)
    (hlength : dataLength headers = data.length) :
    LengthsAgree names headers.headers data ↔ OneLength names b := by
  have hlines (P : THttpHeader → Prop) : (∀ h ∈ headers.headers, P h) ↔
      ∀ x ∈ headerLines b, P (parseHeader x) := by
    rw [hheaders, List.forall_mem_map]
  constructor
  · intro h
    refine ⟨data.length, ?_, (hlines _).mp h, ?_⟩
    · have hmax := dataLength_lt headers
      omega
    · rcases dataLength_cases headers with ⟨-, h0⟩ | ⟨x, hx, hk, -⟩
      · exact .inr (.inl (by omega))
      · rw [hheaders] at hx
        obtain ⟨y, hy, rfl⟩ := List.mem_map.mp hx
        exact .inl ⟨y, hy, hk⟩
  · rintro ⟨n, hn, hall, hknown⟩ h hh hk
    have hspell := (hlines fun h => h.key ∈ names → Spells 10 h.value n).mpr hall
    have hspells := hspell h hh hk
    rcases dataLength_cases headers with ⟨hnone, h0⟩ | ⟨x, hx, hxk, hxv⟩
    · -- the parsers have seen no length
      rcases hknown with ⟨y, hy, hyk⟩ | rfl | hno
      · exact absurd hyk ((hlines _).mp hnone y hy)
      · rwa [show data.length = 0 by omega]
      · exact absurd hk ((hlines (·.key ∉ names)).mpr hno h hh)
    · have hv := lengthOf_spells (hspell x hx (hxk ▸ hnames)) hn
      rwa [show data.length = n by omega]

/-- **When the next hop frames the body as the proxy did.** For every text that
a new parser has completed, as a request or as a response without chunks, and
whatever names the next hop takes for a content length: every header with such a
name is a numeral for the length of the data exactly when all those lines have
the same number, and the parsers know it too. -/
theorem lengths_agree_iff (b : Bytes) :
    (∀ p, Completes THttpRequestParser.consume .make b p →
      (LengthsAgree names p.parsed.headers.headers p.parsed.data ↔ OneLength names b)) ∧
    (∀ p, Completes THttpResponseParser.consume .make b p → p.chunked = false →
      (LengthsAgree names p.parsed.headers.headers p.parsed.data ↔ OneLength names b)) := by
  constructor
  · intro p h
    obtain ⟨lines, ht⟩ := THttpRequestParser.accepted h
    refine lengthsAgree_iff hnames ?_ ht.length
    rw [ht.headers, ht.found]
    rfl
  · intro p h hplain
    obtain ⟨lines, -, -, -, ht⟩ := THttpResponseParser.accepted h
    refine lengthsAgree_iff hnames ?_ (ht hplain).length
    rw [(ht hplain).headers, (ht hplain).found]
    rfl

end

/-- A head with the length 2 in it, however often. -/
theorem oneLength_two {b : Bytes} (h : ∃ x ∈ headerLines b, (parseHeader x).key = contentLength)
    (hall : ∀ x ∈ headerLines b, (parseHeader x).key = contentLength → (parseHeader x).value = decimal 2) :
    OneLength {contentLength} b :=
  ⟨2, by decide, fun x hx hk => hall x hx hk ▸ Numeral.spells_decimal 2, .inl h⟩

theorem lengths_agree_iff_hi :
    (∃ p, Completes THttpRequestParser.consume .make postRequest.serialize p ∧
      LengthsAgree {contentLength} p.parsed.headers.headers p.parsed.data) ∧
    ∃ p, Completes THttpResponseParser.consume .make hiResponse.serialize p ∧ p.chunked = false ∧
      LengthsAgree {contentLength} p.parsed.headers.headers p.parsed.data := by
  obtain ⟨p, hp, -⟩ := postRequest_framed.completes
  obtain ⟨q, hq, -, hplain⟩ := hiResponse_framed.completes
  have hmem : contentLength ∈ ({contentLength} : Set Bytes) := Set.mem_singleton _
  have hpost : OneLength {contentLength} postRequest.serialize :=
    oneLength_two (by decide +kernel) (by decide +kernel)
  have hresponse : OneLength {contentLength} hiResponse.serialize :=
    oneLength_two (by decide +kernel) (by decide +kernel)
  exact ⟨⟨p, hp, ((lengths_agree_iff hmem _).1 p hp).mpr hpost⟩,
    ⟨q, hq, hplain, ((lengths_agree_iff hmem _).2 q hq hplain).mpr hresponse⟩⟩

/-- Two lengths, 2 and 0. -/
def twoLengths : Bytes := ascii "GET / HTTP/1.1\r\nContent-Length: 2\r\nContent-Length: 0\r\n\r\n"

/-- The request ends with its head, and is passed on with the length 2. -/
theorem lengths_differ : ∃ p, Completes THttpRequestParser.consume .make twoLengths p ∧
    ¬ LengthsAgree {contentLength} p.parsed.headers.headers p.parsed.data := by
  refine ⟨⟨⟨⟨[SP], ascii "GET"⟩, ⟨[SP], ascii "/"⟩, ⟨CRLF, ascii "HTTP/1.1"⟩, .httpVersion⟩,
    ⟨⟨CRLF, []⟩, [⟨contentLength, ascii "2"⟩, ⟨contentLength, ascii "0"⟩]⟩, .make, .headers⟩,
    completes_of_feed ?_, fun h => ?_⟩
  · decide +kernel
  · have hspells := h ⟨contentLength, ascii "2"⟩ List.mem_cons_self rfl
    exact absurd hspells.value (by decide)

end NetworksLab.L3.Http
