import NetworksLab.L3Protocol.HttpParser

/-!
# Chunked responses (`individual/lib/HTTP.cpp`)

A chunk is read together with the CRLF behind it (`length + 2`), and what was
read is appended as it is: the CRLF of every chunk is part of the data.

Results:
* `head_awaits`: a well-formed head with a chunked encoding is taken in.
* `body_completes`: any chunks and the last one; `chunkedData` has each chunk
  with its CRLF.
* `decodes_iff`: so a response is decoded to its body exactly when there are
  no chunks.
-/
namespace NetworksLab.L3.Http
open NetworksLab.Incremental
open NetworksLab.Numeral (decimal fromChars Spells)

/-- The parser behind a head with a chunked encoding. -/
def THttpResponseParser.behindHead (l : THttpResponseStatusLine) (headers : List THttpHeader) :
    THttpResponseParser :=
  ⟨⟨⟨[SP], l.httpVersion⟩, ⟨[SP], l.statusCode⟩, ⟨CRLF, l.reason⟩, .reason⟩, ⟨⟨CRLF, []⟩, headers⟩,
    .make, true, .make CRLF, .make, [], .chunkLength⟩

open THttpResponseParser in
theorem head_awaits {l : THttpResponseStatusLine} {headers : List THttpHeader} (hl : l.Fine)
    (hh : ∀ h ∈ headers, h.Fine) (hc : isChunked (.make headers) = true) :
    Awaits consume make (l.serialize ++ CRLF ++ (THttpHeaders.make headers).serialize ++ CRLF)
      (behindHead l headers) := by
  have hend : endHead { behindLine l with headersParser := ⟨⟨CRLF, []⟩, headers⟩ } =
      .ok (.await, behindHead l headers) := by
    simp only [endHead, THttpHeadersParser.parsed, hc, Bool.true_eq_false, and_false, if_false]
    rfl
  have hheaders := (hosts_headers (behindLine l)).next (headers_completes headers [] hh) hend
  have := (line_awaits hl).append hheaders
  rw [← List.append_assoc] at this
  exact this

/-- A chunk: its length as a hexadecimal numeral, and its bytes. -/
structure Chunk where
  hex : Bytes
  data : Bytes
  nonempty : data ≠ []
  small : data.length < 2 ^ 31 - 2
  spells : Spells 16 hex data.length

def Chunk.serialize (c : Chunk) : Bytes := c.hex ++ CRLF ++ (c.data ++ CRLF)

/-- `0 CRLF` -/
def lastChunk : Bytes := [0x30] ++ CRLF

theorem intFromChars_spells {b : Nat} {s : Bytes} {n : Nat} (h : Spells b s n) (hn : n < 2 ^ 31) :
    intFromChars b s = .ok (n : Int) := by
  refine Numeral.fromChars_spells h ?_ ?_
  · rw [int32_min]; omega
  · rw [int32_max]; omega

theorem fresh_hex {s : Bytes} {n : Nat} (h : Spells 16 s n) : Fresh CRLF s :=
  fresh_crlf fun hi => h.not_mem (c := CR) (by decide) (hi.subset List.mem_cons_self)

namespace THttpResponseParser

/-- The parser between two chunks, or behind the head: `k` is left of the last
chunk, and `d` is the data so far. -/
def between (l : THttpResponseStatusLine) (headers : List THttpHeader) (k : TNParser) (d : Bytes) :
    THttpResponseParser :=
  { behindHead l headers with chunkParser := k, chunkedData := d }

section
variable (l : THttpResponseStatusLine) (headers : List THttpHeader)

/-- Step lemma: a chunk is read with its CRLF, and both are data. -/
theorem chunk_awaits (k : TNParser) (d : Bytes) (c : Chunk) : ∃ k',
    Awaits consume (between l headers k d) c.serialize (between l headers k' (d ++ (c.data ++ CRLF))) := by
  have hsmall := c.small
  have hpos := List.length_pos_of_ne_nil c.nonempty
  have hlen : (c.data ++ CRLF).length = c.data.length + 2 := by rw [List.length_append]; rfl
  have h0 : ¬ (c.data.length : Int) = 0 := by omega
  have hmax : ¬ Int32.maxValue.toInt < (c.data.length : Int) + 2 := by
    rw [int32_max]; omega
  have hneg : ¬ (c.data.length : Int) + 2 < 0 := by omega
  have hend : endChunkLength { between l headers k d with chunkLengthParser := ⟨CRLF, c.hex⟩ } =
      .ok (.await, { between l headers ⟨some (c.data ++ CRLF).length, []⟩ d with state := .chunkData }) := by
    simp only [endChunkLength, between, behindHead, intFromChars_spells c.spells (by omega),
      if_neg h0, if_neg hmax, TNParser.setN, if_neg hneg]
    rw [hlen, Nat.cast_add]
    rfl
  have h1 := (hosts_chunkLength (between l headers k d)).next
    (TUntilParser.completes crlf_ne_nil (fresh_hex c.spells)) hend
  have h2 := (hosts_chunkData (between l headers k d)).next
    (TNParser.completes (s := c.data ++ CRLF) (by simp [c.nonempty]) (by omega)) rfl
  exact ⟨_, h1.append h2⟩

/-- Run lemma: any number of chunks. -/
theorem chunks_await : ∀ (chunks : List Chunk) (k : TNParser) (d : Bytes), ∃ k',
    Awaits consume (between l headers k d) (chunks.flatMap Chunk.serialize)
      (between l headers k' (d ++ chunks.flatMap fun c => c.data ++ CRLF))
  | [], k, d => ⟨k, by rw [List.flatMap_nil, List.flatMap_nil, List.append_nil]; exact .nil _⟩
  | c :: chunks, k, d => by
    obtain ⟨k1, h1⟩ := chunk_awaits l headers k d c
    obtain ⟨k2, h2⟩ := chunks_await chunks k1 (d ++ (c.data ++ CRLF))
    refine ⟨k2, ?_⟩
    rw [List.flatMap_cons, List.flatMap_cons, ← List.append_assoc d]
    exact h1.append h2

theorem lastChunk_completes (k : TNParser) (d : Bytes) :
    Completes consume (between l headers k d) lastChunk
      { between l headers k d with chunkLengthParser := ⟨CRLF, [0x30]⟩ } := by
  have hspells : Spells 16 [0x30] 0 := ⟨by decide, by decide, by decide⟩
  refine (hosts_chunkLength (between l headers k d)).last
    (TUntilParser.completes crlf_ne_nil (fresh_hex hspells)) ?_
  simp only [endChunkLength, intFromChars_spells hspells (by decide), Nat.cast_zero, if_true]
  rfl

/-- The body: every chunk goes to the data together with its CRLF. -/
theorem body_completes (chunks : List Chunk) : ∃ p,
    Completes consume (behindHead l headers) (chunks.flatMap Chunk.serialize ++ lastChunk) p ∧
      p.headersParser = ⟨⟨CRLF, []⟩, headers⟩ ∧ p.chunked = true ∧
      p.chunkedData = chunks.flatMap fun c => c.data ++ CRLF := by
  obtain ⟨k, h⟩ := chunks_await l headers chunks .make []
  rw [List.nil_append] at h
  exact ⟨_, h.completes (lastChunk_completes l headers k _), rfl, rfl, rfl⟩

end

end THttpResponseParser

/-- The response has the body, its length as the only content length, and no
transfer encoding. -/
structure Decoded (r : THttpResponse) (body : Bytes) : Prop where
  data : r.data = body
  length : r.headers.find contentLength = some ⟨contentLength, decimal body.length⟩
  lengthListed : (⟨contentLength, decimal body.length⟩ : THttpHeader) ∈ r.headers.headers ∧
    ∀ h ∈ r.headers.headers, h.key = contentLength → h.value = decimal body.length
  encoding : r.headers.find transferEncoding = none
  encodingListed : ∀ h ∈ r.headers.headers, h.key ≠ transferEncoding

theorem parsed_decoded {p : THttpResponseParser} (hp : p.chunked = true) :
    Decoded p.parsed p.chunkedData := by
  have hne : contentLength ≠ transferEncoding := by decide
  have hcons := THttpHeaders.make_consistent p.headersParser.parsed_
  obtain ⟨hmem, hall⟩ := THttpHeaders.mem_update hcons ⟨contentLength, decimal p.chunkedData.length⟩
  have hparsed : p.parsed = ⟨p.responseStatusLineParser.parsed,
      ((THttpHeaders.make p.headersParser.parsed_).update
        ⟨contentLength, decimal p.chunkedData.length⟩).remove transferEncoding, p.chunkedData⟩ := by
    simp only [THttpResponseParser.parsed, hp, if_true, THttpResponse.updateContentLength]
    rfl
  rw [hparsed]
  refine ⟨rfl, ?_, ⟨THttpHeaders.mem_remove.mpr ⟨hmem, hne⟩, fun h hh hk => ?_⟩, ?_,
    fun h hh => (THttpHeaders.mem_remove.mp hh).2⟩
  · simp only [THttpHeaders.find]
    rw [THttpHeaders.update_remove_values hne, Option.map_some]
  · rw [hall h (THttpHeaders.mem_remove.mp hh).1 hk]
  · simp only [THttpHeaders.find, THttpHeaders.remove, Function.update_self, Option.map_none]

/-- The first `Transfer-Encoding` header has the token `chunked`. -/
def HasChunked (headers : List THttpHeader) : Prop :=
  ∃ h, THttpHeaders.first headers transferEncoding = some h ∧ ascii "chunked" ∈ h.splitValue

theorem HasChunked.isChunked {headers : List THttpHeader} (h : HasChunked headers) :
    isChunked (.make headers) = true := by
  obtain ⟨x, hx, hc⟩ := h
  have hv : (THttpHeaders.make headers).values transferEncoding = some x.value :=
    (THttpHeaders.make_consistent headers _).trans (congrArg _ hx)
  simp only [Http.isChunked, THttpHeaders.find, hv, Option.map_some, decide_eq_true_eq]
  exact hc

/-- A chunked response on the wire. -/
def chunkedResponse (l : THttpResponseStatusLine) (headers : List THttpHeader) (chunks : List Chunk) :
    Bytes :=
  (l.serialize ++ CRLF ++ (THttpHeaders.make headers).serialize ++ CRLF) ++
    (chunks.flatMap Chunk.serialize ++ lastChunk)

/-- `Consume` answers `Await` up to the last byte and `Parsed` to it, and the
response is the chunks' data in one. -/
def Decodes (l : THttpResponseStatusLine) (headers : List THttpHeader) (chunks : List Chunk) : Prop :=
  ∃ p, feed THttpResponseParser.consume .make (chunkedResponse l headers chunks) =
      .ok (List.replicate ((chunkedResponse l headers chunks).length - 1) .await ++ [.parsed], p) ∧
    Decoded p.parsed (chunks.flatMap Chunk.data)

/-- What the parser makes of any chunked response: the CRLFs are left in. -/
theorem chunkedResponse_parsed {l : THttpResponseStatusLine} {headers : List THttpHeader}
    (hl : l.Fine) (hh : ∀ h ∈ headers, h.Fine) (hc : HasChunked headers) (chunks : List Chunk) :
    ∃ p, feed THttpResponseParser.consume .make (chunkedResponse l headers chunks) =
        .ok (List.replicate ((chunkedResponse l headers chunks).length - 1) .await ++ [.parsed], p) ∧
      Decoded p.parsed (chunks.flatMap fun c => c.data ++ CRLF) := by
  obtain ⟨p, hp, -, hchunked, hdata⟩ := THttpResponseParser.body_completes l headers chunks
  have hrun := (head_awaits hl hh hc.isChunked).completes hp
  exact ⟨p, hrun.feed, hdata ▸ parsed_decoded hchunked⟩

theorem length_with_crlf (chunks : List Chunk) :
    (chunks.flatMap fun c => c.data ++ CRLF).length =
      (chunks.flatMap Chunk.data).length + 2 * chunks.length := by
  induction chunks with
  | nil => rfl
  | cons c chunks ih =>
    have hcrlf : CRLF.length = 2 := rfl
    simp only [List.flatMap_cons, List.length_append, List.length_cons, ih, hcrlf]
    omega

/-- **When a chunked response is decoded to its body.** For every status line
and header list whose fields do not contain their delimiters and whose first
`Transfer-Encoding` has the token `chunked`: exactly when there are no chunks. -/
theorem decodes_iff {l : THttpResponseStatusLine} {headers : List THttpHeader}
    (hl : l.Fine) (hh : ∀ h ∈ headers, h.Fine) (hc : HasChunked headers) (chunks : List Chunk) :
    Decodes l headers chunks ↔ chunks = [] := by
  obtain ⟨p, hfeed, hdec⟩ := chunkedResponse_parsed hl hh hc chunks
  constructor
  · rintro ⟨q, hq, hdec'⟩
    rw [hfeed] at hq
    cases hq
    have hdata := congrArg List.length (hdec.data.symm.trans hdec'.data)
    rw [length_with_crlf] at hdata
    exact List.eq_nil_of_length_eq_zero (by omega)
  · rintro rfl
    exact ⟨p, hfeed, hdec⟩

def okLine : THttpResponseStatusLine := ⟨ascii "HTTP/1.1", ascii "200", ascii "OK"⟩

def chunkedHeader : THttpHeader := ⟨ascii "Transfer-Encoding", ascii "gzip, chunked"⟩

def hiChunk : Chunk := ⟨ascii "2", ascii "hi", by decide, by decide, by decide, by decide, by decide⟩

theorem okLine_fine : okLine.Fine := by constructor <;> decide

theorem chunkedHeader_fine : ∀ h ∈ [chunkedHeader], h.Fine := by
  intro h hh
  obtain rfl := List.mem_singleton.mp hh
  constructor <;> decide

theorem chunkedHeader_chunked : HasChunked [chunkedHeader] := ⟨chunkedHeader, rfl, by decide⟩

/-- No chunks, and one. -/
theorem decodes_iff_hi : Decodes okLine [chunkedHeader] [] ∧ ¬ Decodes okLine [chunkedHeader] [hiChunk] :=
  ⟨(decodes_iff okLine_fine chunkedHeader_fine chunkedHeader_chunked []).mpr rfl,
    (decodes_iff okLine_fine chunkedHeader_fine chunkedHeader_chunked [hiChunk]).not.mpr (List.cons_ne_nil _ _)⟩

/-- One chunk, `hi`: the data is `hi` and its CRLF. -/
theorem crlf_kept : (okLine.Fine ∧ (∀ h ∈ [chunkedHeader], h.Fine) ∧ HasChunked [chunkedHeader]) ∧
    ¬ Decodes okLine [chunkedHeader] [hiChunk] := by
  refine ⟨⟨okLine_fine, chunkedHeader_fine, chunkedHeader_chunked⟩, ?_⟩
  rintro ⟨p, hp, hd⟩
  have hrun : (feed THttpResponseParser.consume .make
      (chunkedResponse okLine [chunkedHeader] [hiChunk])).map (fun x => x.2.parsed.data) =
      .ok (ascii "hi\r\n") := by decide +kernel
  rw [hp] at hrun
  have hdata := (Except.ok.inj hrun).symm.trans hd.data
  exact absurd hdata (by decide)

end NetworksLab.L3.Http
