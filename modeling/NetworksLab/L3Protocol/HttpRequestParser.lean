import NetworksLab.L3Protocol.HttpParser

/-!
# The HTTP request parser (`individual/lib/HTTP.cpp`)

`THttpRequestParser` reads a request line, headers and a body by length. The
parser of the request line is the parser of the status line under other names
(`asStatusLine`), so the runs of that one are its runs.

Results:
* `requestLine_completes`: a request line whose fields do not contain their
  delimiters is read as it was written.
* `THttpRequestParser.hosts_...`: the phases.
-/
namespace NetworksLab.L3.Http
open NetworksLab.Incremental

/-! ## The parser -/

/-- mirrors individual/lib/HTTP.cpp:356-360 -/
inductive ERequestLine where
  | method
  | url
  | httpVersion
  deriving DecidableEq, Repr

/-- mirrors individual/lib/HTTP.cpp:317-363 -/
structure THttpRequestLineParser where
  methodParser : TUntilParser
  urlParser : TUntilParser
  httpVersionParser : TUntilParser
  state : ERequestLine
  deriving DecidableEq, Repr

namespace THttpRequestLineParser

/-- mirrors individual/lib/HTTP.cpp:319-324 -/
def make : THttpRequestLineParser := ⟨.make [SP], .make [SP], .make CRLF, .method⟩

/-- mirrors individual/lib/HTTP.cpp:326-341 -/
def consume (p : THttpRequestLineParser) (c : UInt8) : EParseResult × THttpRequestLineParser :=
  match p.state with
  | .method =>
    match p.methodParser.consume c with
    | (.parsed, q) => (.await, { p with methodParser := q, state := .url })
    | (.await, q) => (.await, { p with methodParser := q })
  | .url =>
    match p.urlParser.consume c with
    | (.parsed, q) => (.await, { p with urlParser := q, state := .httpVersion })
    | (.await, q) => (.await, { p with urlParser := q })
  | .httpVersion =>
    match p.httpVersionParser.consume c with
    | (.parsed, q) => (.parsed, { p with httpVersionParser := q })
    | (.await, q) => (.await, { p with httpVersionParser := q })

/-- mirrors individual/lib/HTTP.cpp:343-349 -/
def parsed (p : THttpRequestLineParser) : THttpRequestLine :=
  ⟨p.methodParser.parsed, p.urlParser.parsed, p.httpVersionParser.parsed⟩

end THttpRequestLineParser

/-- mirrors individual/lib/HTTP.cpp:513-517 -/
inductive ERequest where
  | requestLine
  | headers
  | data
  deriving DecidableEq, Repr

/-- mirrors individual/lib/HTTP.cpp:472-520 -/
structure THttpRequestParser where
  requestLineParser : THttpRequestLineParser
  headersParser : THttpHeadersParser
  dataParser : TNParser
  state : ERequest
  deriving DecidableEq, Repr

namespace THttpRequestParser

/-- mirrors individual/lib/HTTP.cpp:474-476 -/
def make : THttpRequestParser := ⟨.make, .make, .make, .requestLine⟩

/-- The head has been read.
mirrors individual/lib/HTTP.cpp:485-490 -/
def endHead (p : THttpRequestParser) : Except Fault (EParseResult × THttpRequestParser) :=
  let dataLength := dataLength p.headersParser.parsed
  if dataLength = 0 then return (.parsed, p)
  else do
    let dataParser ← TNParser.setN dataLength
    return (.await, { p with state := .data, dataParser := dataParser })

/-- mirrors individual/lib/HTTP.cpp:478-498 -/
def consume (p : THttpRequestParser) (c : UInt8) : Except Fault (EParseResult × THttpRequestParser) :=
  match p.state with
  | .requestLine =>
    match p.requestLineParser.consume c with
    | (.parsed, q) => return (.await, { p with requestLineParser := q, state := .headers })
    | (.await, q) => return (.await, { p with requestLineParser := q })
  | .headers =>
    match p.headersParser.consume c with
    | (.parsed, q) => endHead { p with headersParser := q }
    | (.await, q) => return (.await, { p with headersParser := q })
  | .data => do
    let (r, q) ← p.dataParser.consume c
    return (r, { p with dataParser := q })

/-- mirrors individual/lib/HTTP.cpp:500-506 -/
def parsed (p : THttpRequestParser) : THttpRequest :=
  ⟨p.requestLineParser.parsed, p.headersParser.parsed, p.dataParser.parsed⟩

end THttpRequestParser

/-! ## The request line as a status line -/

/-- The three fields under the other names. -/
def THttpRequestLine.asStatusLine (l : THttpRequestLine) : THttpResponseStatusLine :=
  ⟨l.method, l.url, l.httpVersion⟩

theorem THttpRequestLine.asStatusLine_inj {l l' : THttpRequestLine}
    (h : l.asStatusLine = l'.asStatusLine) : l = l' := by
  cases l
  cases l'
  simpa [asStatusLine] using h

def ERequestLine.asStatusLine : ERequestLine → EStatusLine
  | .method => .httpVersion
  | .url => .statusCode
  | .httpVersion => .reason

namespace THttpRequestLineParser

def asStatusLine (p : THttpRequestLineParser) : THttpResponseStatusLineParser :=
  ⟨p.methodParser, p.urlParser, p.httpVersionParser, p.state.asStatusLine⟩

theorem consume_asStatusLine (p : THttpRequestLineParser) (c : UInt8) :
    p.asStatusLine.consume c = ((p.consume c).1, (p.consume c).2.asStatusLine) := by
  obtain ⟨a, b, d, s⟩ := p
  cases s with
  | method =>
    simp only [asStatusLine, ERequestLine.asStatusLine, THttpResponseStatusLineParser.consume, consume]
    rcases a.consume c with ⟨_ | _, q⟩ <;> rfl
  | url =>
    simp only [asStatusLine, ERequestLine.asStatusLine, THttpResponseStatusLineParser.consume, consume]
    rcases b.consume c with ⟨_ | _, q⟩ <;> rfl
  | httpVersion =>
    simp only [asStatusLine, ERequestLine.asStatusLine, THttpResponseStatusLineParser.consume, consume]
    rcases d.consume c with ⟨_ | _, q⟩ <;> rfl

theorem hosts_asStatusLine : Hosts (ε := Fault) (total consume)
    (total THttpResponseStatusLineParser.consume) asStatusLine
    (fun q => .ok (.parsed, q.asStatusLine)) :=
  .of_total (fun h => by rw [consume_asStatusLine, h]) (fun h => by rw [consume_asStatusLine, h])

end THttpRequestLineParser

/-- No field of the request line contains its delimiter. -/
structure THttpRequestLine.Fine (l : THttpRequestLine) : Prop where
  method : SP ∉ l.method
  url : SP ∉ l.url
  httpVersion : ¬ CRLF <:+: l.httpVersion

theorem THttpRequestLine.Fine.asStatusLine {l : THttpRequestLine} (h : l.Fine) : l.asStatusLine.Fine :=
  ⟨h.method, h.url, h.httpVersion⟩

open THttpRequestLineParser in
theorem requestLine_completes {l : THttpRequestLine} (hl : l.Fine) :
    ∃ q, Completes (ε := Fault) (total consume) make (l.serialize ++ CRLF) q ∧ q.parsed = l := by
  obtain ⟨s₁, s₂, q, hs, hq, ⟨rfl, hend⟩ | ⟨r, hend, -⟩⟩ :=
    hosts_asStatusLine.completes (p := make) (statusLine_completes hl.asStatusLine)
  · rw [List.append_nil] at hs
    refine ⟨q, hs ▸ hq, ?_⟩
    have hparsed := congrArg THttpResponseStatusLineParser.parsed (Prod.mk.inj (Except.ok.inj hend)).2
    exact THttpRequestLine.asStatusLine_inj hparsed
  · cases hend

/-! ## Phases -/

namespace THttpRequestParser

variable (p : THttpRequestParser)

theorem hosts_requestLine : Hosts (total THttpRequestLineParser.consume) consume
    (fun q => { p with requestLineParser := q, state := .requestLine })
    (fun q => .ok (.await, { p with requestLineParser := q, state := .headers })) where
  await h := by rw [total_eq_ok] at h; simp only [consume, h]; rfl
  parsed h := by rw [total_eq_ok] at h; simp only [consume, h]; rfl
  error h := by cases h

theorem hosts_headers : Hosts (total THttpHeadersParser.consume) consume
    (fun q => { p with headersParser := q, state := .headers })
    (fun q => endHead { p with headersParser := q, state := .headers }) where
  await h := by rw [total_eq_ok] at h; simp only [consume, h]; rfl
  parsed h := by rw [total_eq_ok] at h; simp only [consume, h]
  error h := by cases h

theorem hosts_data : Hosts TNParser.consume consume
    (fun q => { p with dataParser := q, state := .data })
    (fun q => .ok (.parsed, { p with dataParser := q, state := .data })) where
  await h := by simp only [consume, h]; rfl
  parsed h := by simp only [consume, h]; rfl
  error h := by simp only [consume, h]; rfl

end THttpRequestParser

end NetworksLab.L3.Http
