import NetworksLab.L3Protocol.HttpChunked
import NetworksLab.L3Protocol.HttpGrammar

/-!
# Writing and reading HTTP messages (`individual/lib/HTTP.cpp`)

A message is `Framed` when none of its fields contains its delimiter and its
headers give the length of its data. `Reads`: fed to a new parser, its text is
the message again, and the parser says so with the last byte and not before.

The other way round, `ParseHeader` takes a line without `: ` as a key, and
`Serialize` puts the `: ` behind it.

Results:
* `serialize_reads`: what is framed is read as it was written.
* `serialize_parsed_iff`: what was read is written as it was exactly when each
  header line has a separator.
-/
namespace NetworksLab.L3.Http
open NetworksLab.Incremental

/-! ## Written and read -/

structure THttpRequest.Framed (r : THttpRequest) : Prop where
  line : r.requestLine.Fine
  headers : ∀ h ∈ r.headers.headers, h.Fine
  length : dataLength r.headers = r.data.length

/-- Chunks are never written. -/
structure THttpResponse.Framed (r : THttpResponse) : Prop where
  line : r.statusLine.Fine
  headers : ∀ h ∈ r.headers.headers, h.Fine
  plain : ¬ HasChunked r.headers.headers
  length : dataLength r.headers = r.data.length

/-- A new parser answers `Await` up to the last byte and `Parsed` to it, and has
the same first line, header list and data. -/
def THttpRequest.Reads (r : THttpRequest) : Prop :=
  ∃ p, feed THttpRequestParser.consume .make r.serialize =
      .ok (List.replicate (r.serialize.length - 1) .await ++ [.parsed], p) ∧
    p.parsed.requestLine = r.requestLine ∧ p.parsed.headers.headers = r.headers.headers ∧
    p.parsed.data = r.data

def THttpResponse.Reads (r : THttpResponse) : Prop :=
  ∃ p, feed THttpResponseParser.consume .make r.serialize =
      .ok (List.replicate (r.serialize.length - 1) .await ++ [.parsed], p) ∧
    p.parsed.statusLine = r.statusLine ∧ p.parsed.headers.headers = r.headers.headers ∧
    p.parsed.data = r.data

theorem isChunked_iff {hs : THttpHeaders} (h : hs.Consistent) :
    isChunked hs = true ↔ HasChunked hs.headers := by
  simp only [isChunked, THttpHeaders.find, HasChunked, h transferEncoding]
  cases THttpHeaders.first hs.headers transferEncoding with
  | none => simp
  | some x =>
    rw [Option.map_some, Option.map_some]
    refine decide_eq_true_iff.trans ⟨fun hx => ⟨x, rfl, hx⟩, ?_⟩
    rintro ⟨y, hy, hc⟩
    cases hy
    exact hc

/-- What one `Content-Length` sets `dataLength` to. -/
def lengthOf (value : Bytes) : Int :=
  match intFromChars 10 value with
  | .ok v => v
  | .error _ => 0

theorem lengthOf_lt (value : Bytes) : lengthOf value < 2 ^ 31 := by
  unfold lengthOf
  split
  · rename_i v hv
    have hmax := (Numeral.fromChars_range hv).2
    rw [int32_max] at hmax
    omega
  · decide

/-- The `Content-Length` that counts. -/
def lastLength (headers : List THttpHeader) : Option THttpHeader :=
  (headers.filter fun h => decide (h.key = contentLength)).getLast?

theorem dataLength_eq (hs : THttpHeaders) :
    dataLength hs = (lastLength hs.headers).elim 0 fun h => lengthOf h.value := by
  obtain ⟨headers, values⟩ := hs
  simp only [dataLength, lastLength]
  induction headers using List.reverseRecOn with
  | nil => rfl
  | append_singleton headers x ih =>
    rw [List.foldl_concat, List.filter_append]
    by_cases hx : x.key = contentLength
    · rw [if_pos hx, List.filter_cons_of_pos (by simp [hx]), List.filter_nil, List.getLast?_concat]
      rfl
    · rw [if_neg hx, List.filter_cons_of_neg (by simp [hx]), List.filter_nil, List.append_nil]
      exact ih

/-- The length is that of one of the `Content-Length` headers, if there are any. -/
theorem dataLength_cases (hs : THttpHeaders) :
    ((∀ h ∈ hs.headers, h.key ≠ contentLength) ∧ dataLength hs = 0) ∨
      ∃ h ∈ hs.headers, h.key = contentLength ∧ dataLength hs = lengthOf h.value := by
  rw [dataLength_eq]
  cases hl : lastLength hs.headers with
  | none =>
    rw [lastLength, List.getLast?_eq_none_iff, List.filter_eq_nil_iff] at hl
    exact .inl ⟨fun h hh hk => hl h hh (by simp [hk]), rfl⟩
  | some x =>
    obtain ⟨hx, hk⟩ := List.mem_filter.mp (List.mem_of_getLast? hl)
    exact .inr ⟨x, hx, of_decide_eq_true hk, rfl⟩

/-- `DataLength` is an `int`. -/
theorem dataLength_lt (hs : THttpHeaders) : dataLength hs < 2 ^ 31 := by
  rcases dataLength_cases hs with ⟨-, h0⟩ | ⟨h, -, -, hv⟩
  · rw [h0]
    decide
  · rw [hv]
    exact lengthOf_lt h.value

theorem THttpRequestParser.endHead_empty {p : THttpRequestParser}
    (h : dataLength p.headersParser.parsed = 0) : endHead p = .ok (.parsed, p) := by
  simp only [endHead, h]
  rfl

theorem THttpRequestParser.endHead_counted {p : THttpRequestParser} {n : Nat} (hn : 0 < n)
    (h : dataLength p.headersParser.parsed = n) :
    endHead p = .ok (.await, { p with state := .data, dataParser := ⟨some n, []⟩ }) := by
  have h0 : ¬ (n : Int) = 0 := by omega
  have hneg : ¬ (n : Int) < 0 := by omega
  simp only [endHead, h, if_neg h0, TNParser.setN, if_neg hneg]
  rfl

theorem THttpResponseParser.endHead_empty {p : THttpResponseParser}
    (hplain : isChunked p.headersParser.parsed = false)
    (h : dataLength p.headersParser.parsed = 0) : endHead p = .ok (.parsed, p) := by
  simp only [endHead, h, hplain]
  rfl

theorem THttpResponseParser.endHead_counted {p : THttpResponseParser} {n : Nat} (hn : 0 < n)
    (hplain : isChunked p.headersParser.parsed = false) (h : dataLength p.headersParser.parsed = n) :
    endHead p = .ok (.await, { p with state := .data, dataParser := ⟨some n, []⟩ }) := by
  have h0 : ¬ (n : Int) = 0 := by omega
  have hneg : ¬ (n : Int) < 0 := by omega
  simp only [endHead, h, hplain, h0, false_and, if_false, if_true, TNParser.setN, if_neg hneg]
  rfl

open THttpRequestParser in
/-- By the length of the data: none, or counted bytes behind the head. -/
theorem THttpRequest.Framed.completes {r : THttpRequest} (h : r.Framed) : ∃ p,
    Completes consume make r.serialize p ∧
      p.parsed = ⟨r.requestLine, .make r.headers.headers, r.data⟩ := by
  obtain ⟨l, hl, hline⟩ := requestLine_completes h.line
  have hlength : dataLength (.make r.headers.headers) = r.data.length := h.length
  have hmax : (r.data.length : Int) < 2 ^ 31 := hlength ▸ dataLength_lt _
  have h1 := (hosts_requestLine make).next hl rfl
  have h2 := headers_completes r.headers.headers [] h.headers
  have htext : r.serialize = (r.requestLine.serialize ++ CRLF) ++
      (((r.headers.headers.flatMap fun h => h.serialize ++ CRLF) ++ CRLF) ++ r.data) := by
    simp only [THttpRequest.serialize, THttpHeaders.serialize, List.append_assoc]
  rw [htext]
  by_cases hd : r.data = []
  · rw [hd, List.length_nil] at hlength
    have h3 := (hosts_headers { make with requestLineParser := l }).last h2 (endHead_empty hlength)
    rw [hd, List.append_nil]
    exact ⟨_, h1.completes h3, by rw [parsed, hline]; rfl⟩
  · have hpos := List.length_pos_of_ne_nil hd
    have h3 := (hosts_headers { make with requestLineParser := l }).next h2 (endHead_counted hpos hlength)
    have h4 := (hosts_data ⟨l, ⟨⟨CRLF, []⟩, r.headers.headers⟩, .make, .data⟩).last
      (TNParser.completes hd (by omega)) rfl
    exact ⟨_, h1.completes (h3.completes h4), by rw [parsed, hline]; rfl⟩

open THttpResponseParser in
theorem THttpResponse.Framed.completes {r : THttpResponse} (h : r.Framed) : ∃ p,
    Completes consume make r.serialize p ∧
      p.parsed = ⟨r.statusLine, .make r.headers.headers, r.data⟩ ∧ p.chunked = false := by
  have hlength : dataLength (.make r.headers.headers) = r.data.length := h.length
  have hmax : (r.data.length : Int) < 2 ^ 31 := hlength ▸ dataLength_lt _
  have hplain : isChunked (.make r.headers.headers) = false := by
    rw [← Bool.not_eq_true, isChunked_iff (THttpHeaders.make_consistent _)]
    exact h.plain
  have h1 := line_awaits h.line
  have h2 := headers_completes r.headers.headers [] h.headers
  have htext : r.serialize = (r.statusLine.serialize ++ CRLF) ++
      (((r.headers.headers.flatMap fun h => h.serialize ++ CRLF) ++ CRLF) ++ r.data) := by
    simp only [THttpResponse.serialize, THttpHeaders.serialize, List.append_assoc]
  rw [htext]
  by_cases hd : r.data = []
  · rw [hd, List.length_nil] at hlength
    have h3 := (hosts_headers (behindLine r.statusLine)).last h2 (endHead_empty hplain hlength)
    rw [hd, List.append_nil]
    exact ⟨_, h1.completes h3, rfl, rfl⟩
  · have hpos := List.length_pos_of_ne_nil hd
    have h3 := (hosts_headers (behindLine r.statusLine)).next h2 (endHead_counted hpos hplain hlength)
    have h4 := (hosts_data { behindLine r.statusLine with
        headersParser := ⟨⟨CRLF, []⟩, r.headers.headers⟩ }).last
      (TNParser.completes hd (by omega)) rfl
    exact ⟨_, h1.completes (h3.completes h4), rfl, rfl⟩

theorem THttpRequest.Framed.reads {r : THttpRequest} (h : r.Framed) : r.Reads := by
  obtain ⟨p, hrun, hp⟩ := h.completes
  exact ⟨p, hrun.feed, by rw [hp], by rw [hp]; rfl, by rw [hp]⟩

theorem THttpResponse.Framed.reads {r : THttpResponse} (h : r.Framed) : r.Reads := by
  obtain ⟨p, hrun, hp, -⟩ := h.completes
  exact ⟨p, hrun.feed, by rw [hp], by rw [hp]; rfl, by rw [hp]⟩

/-- **What is written is read.** Every request and every response without chunks
whose fields do not contain their delimiters and whose headers give the length
of its data. -/
theorem serialize_reads :
    (∀ r : THttpRequest, r.Framed → r.Reads) ∧ (∀ r : THttpResponse, r.Framed → r.Reads) :=
  ⟨fun _ h => h.reads, fun _ h => h.reads⟩

def hostHeader : THttpHeader := ⟨ascii "Host", ascii "a:b"⟩

def lengthHeader : THttpHeader := ⟨contentLength, ascii "2"⟩

def postRequest : THttpRequest :=
  ⟨⟨ascii "POST", ascii "/", ascii "HTTP/1.1"⟩, .make [hostHeader, lengthHeader], ascii "hi"⟩

def hiResponse : THttpResponse := ⟨okLine, .make [lengthHeader], CRLF⟩

theorem postRequest_framed : postRequest.Framed := by
  refine ⟨by constructor <;> decide, fun h hh => ?_, by decide +kernel⟩
  rcases List.mem_pair.mp hh with rfl | rfl
  · constructor <;> decide
  · constructor <;> decide

theorem hiResponse_framed : hiResponse.Framed := by
  refine ⟨okLine_fine, fun h hh => ?_, ?_, by decide +kernel⟩
  · obtain rfl := List.mem_singleton.mp hh
    constructor <;> decide
  · rintro ⟨h, hh, -⟩
    cases hh

theorem serialize_reads_hi : postRequest.Reads ∧ hiResponse.Reads :=
  ⟨serialize_reads.1 postRequest postRequest_framed, serialize_reads.2 hiResponse hiResponse_framed⟩

/-! ## Read and written -/

/-- Each line without a separator gains one. -/
theorem length_rewritten (lines : List Bytes) :
    (lines.flatMap fun x => (parseHeader x).serialize ++ CRLF).length =
      (lines.flatMap fun x => x ++ CRLF).length + 2 * lines.countP fun x => decide (¬ SEP <:+: x) := by
  induction lines with
  | nil => rfl
  | cons x lines ih =>
    have hsep : SEP.length = 2 := rfl
    have hx := congrArg List.length (serialize_parseHeader x)
    rw [List.flatMap_cons, List.flatMap_cons, List.length_append, List.length_append, ih,
      List.countP_cons, List.length_append, List.length_append, hx]
    by_cases h : SEP <:+: x
    · simp only [h, if_true, not_true_eq_false, decide_false, Bool.false_eq_true, if_false]
      omega
    · simp only [h, if_false, not_false_eq_true, decide_true, if_true, List.length_append, hsep]
      omega

theorem rewritten_iff (lines : List Bytes) :
    (lines.flatMap fun x => (parseHeader x).serialize ++ CRLF) = (lines.flatMap fun x => x ++ CRLF) ↔
      ∀ x ∈ lines, SEP <:+: x := by
  constructor
  · intro h
    have hlen := length_rewritten lines
    rw [h] at hlen
    have h0 : (lines.countP fun x => decide (¬ SEP <:+: x)) = 0 := by omega
    rw [List.countP_eq_zero] at h0
    intro x hx
    simpa using h0 x hx
  · intro h
    apply List.flatMap_congr
    intro x hx
    rw [serialize_parseHeader, if_pos (h x hx)]

/-- The text of a message and what is written of it differ in the header lines. -/
theorem messageText_eq_iff (first : Bytes) (lines : List Bytes) (body : Bytes) :
    first ++ CRLF ++ (THttpHeaders.make (lines.map parseHeader)).serialize ++ CRLF ++ body =
      messageText first lines body ↔ ∀ x ∈ lines, SEP <:+: x := by
  rw [← rewritten_iff, messageText, linesText, THttpHeaders.serialize, THttpHeaders.make,
    List.flatMap_map]
  simp only [List.append_assoc, List.append_cancel_left_eq, List.append_cancel_right_eq]

theorem THttpRequest.Text.serialize_iff {r : THttpRequest} {lines : List Bytes} {b : Bytes}
    (h : r.Text lines b) : r.serialize = b ↔ ∀ x ∈ headerLines b, SEP <:+: x := by
  rw [h.found, THttpRequest.serialize, h.headers, h.text]
  exact messageText_eq_iff _ lines r.data

theorem THttpResponse.Text.serialize_iff {r : THttpResponse} {lines : List Bytes} {b : Bytes}
    (h : r.Text lines b) : r.serialize = b ↔ ∀ x ∈ headerLines b, SEP <:+: x := by
  rw [h.found, THttpResponse.serialize, h.headers, h.text]
  exact messageText_eq_iff _ lines r.data

/-- **When a message is passed on as it came.** For every text that a new parser
has completed with its last byte, as a request or as a response without chunks:
exactly when every header line has a separator. -/
theorem serialize_parsed_iff (b : Bytes) :
    (∀ p, Completes THttpRequestParser.consume .make b p →
      (p.parsed.serialize = b ↔ ∀ x ∈ headerLines b, SEP <:+: x)) ∧
    (∀ p, Completes THttpResponseParser.consume .make b p → p.chunked = false →
      (p.parsed.serialize = b ↔ ∀ x ∈ headerLines b, SEP <:+: x)) := by
  constructor
  · intro p h
    obtain ⟨lines, ht⟩ := THttpRequestParser.accepted h
    exact ht.serialize_iff
  · intro p h hplain
    obtain ⟨lines, -, -, -, ht⟩ := THttpResponseParser.accepted h
    exact (ht hplain).serialize_iff

theorem serialize_parsed_iff_hi :
    (∃ p, Completes THttpRequestParser.consume .make postRequest.serialize p ∧
      p.parsed.serialize = postRequest.serialize) ∧
    ∃ p, Completes THttpResponseParser.consume .make hiResponse.serialize p ∧ p.chunked = false ∧
      p.parsed.serialize = hiResponse.serialize := by
  obtain ⟨p, hp, -⟩ := postRequest_framed.completes
  obtain ⟨q, hq, -, hplain⟩ := hiResponse_framed.completes
  exact ⟨⟨p, hp, ((serialize_parsed_iff _).1 p hp).mpr (by decide +kernel)⟩,
    ⟨q, hq, hplain, ((serialize_parsed_iff _).2 q hq hplain).mpr (by decide +kernel)⟩⟩

/-- A header without a space behind its colon. -/
def bareText : Bytes := ascii "GET / HTTP/1.1\r\nHost:x\r\n\r\n"

/-- `Host:x` is passed on as `Host:x: `. -/
theorem separator_gained : ∃ p, Completes THttpRequestParser.consume .make bareText p ∧
    p.parsed.serialize ≠ bareText := by
  refine ⟨⟨⟨⟨[SP], ascii "GET"⟩, ⟨[SP], ascii "/"⟩, ⟨CRLF, ascii "HTTP/1.1"⟩, .httpVersion⟩,
    ⟨⟨CRLF, []⟩, [⟨ascii "Host:x", []⟩]⟩, .make, .headers⟩, completes_of_feed ?_, ?_⟩
  · decide +kernel
  · decide

end NetworksLab.L3.Http
