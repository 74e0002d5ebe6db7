import NetworksLab.Core.Incremental
import NetworksLab.Core.Result
import NetworksLab.L3Protocol.HttpMessage

/-!
# The HTTP response parser (`individual/lib/HTTP.cpp`)

`THttpResponseParser` is fed one byte at a time and hands it to the parser of
the part it is in: status line, headers, body by length, chunk length, chunk.
Each of those is itself fed byte by byte (`Incremental`).

Results:
* `TUntilParser.completes`, `TNParser.completes`: a field up to its delimiter,
  and so many bytes.
* `hosts_...`: what each phase of a parser does with the parser inside
  (`Incremental.Hosts`).
* `statusLine_completes`, `headers_completes`: a head whose fields do not
  contain their delimiters is read as it was written.
-/
namespace NetworksLab.L3.Http
open NetworksLab.Incremental
open NetworksLab.Numeral (fromChars)

abbrev EParseResult := Progress

/-- Why `Consume` does not return. -/
inductive Fault where
  /-- an `int` is read that was never set -/
  | uninitialised
  /-- an `int` leaves its range -/
  | overflow
  /-- `std::length_error` from `reserve` -/
  | lengthError
  deriving DecidableEq, Repr

/-! ## The parser -/

/-- mirrors individual/lib/HTTP.cpp:244-254 -/
def endsWith (s t : Bytes) : Bool :=
  if s.length < t.length then false
  else (List.range t.length).all fun i => s[s.length - 1 - i]? == t[t.length - 1 - i]?

/-- mirrors individual/lib/HTTP.cpp:256-282 -/
structure TUntilParser where
  delimiter : Bytes
  parsed : Bytes
  deriving DecidableEq, Repr

def TUntilParser.make (delimiter : Bytes) : TUntilParser := ⟨delimiter, []⟩

/-- mirrors individual/lib/HTTP.cpp:262-269 -/
def TUntilParser.consume (p : TUntilParser) (c : UInt8) : EParseResult × TUntilParser :=
  let parsed := p.parsed ++ [c]
  if endsWith parsed p.delimiter then
    (.parsed, { p with parsed := parsed.take (parsed.length - p.delimiter.length) })
  else (.await, { p with parsed := parsed })

/-- mirrors individual/lib/HTTP.cpp:271-273 -/
def TUntilParser.reset (p : TUntilParser) : TUntilParser := { p with parsed := [] }

/-- `N_` is not set before `SetN`.
mirrors individual/lib/HTTP.cpp:284-315 -/
structure TNParser where
  n : Option Int
  parsed : Bytes
  deriving DecidableEq, Repr

def TNParser.make : TNParser := ⟨none, []⟩

/-- `reserve` throws for a negative `n`.
mirrors individual/lib/HTTP.cpp:293-297 -/
def TNParser.setN (n : Int) : Except Fault TNParser :=
  if n < 0 then throw .lengthError else return ⟨some n, []⟩

/-- mirrors individual/lib/HTTP.cpp:299-306 -/
def TNParser.consume (p : TNParser) (c : UInt8) : Except Fault (EParseResult × TNParser) :=
  match p.n with
  | none => throw .uninitialised
  | some n =>
    if n = Int32.minValue.toInt then throw .overflow
    else return (if n - 1 = 0 then .parsed else .await, ⟨some (n - 1), p.parsed ++ [c]⟩)

/-- mirrors individual/lib/HTTP.cpp:404-408 -/
inductive EStatusLine where
  | httpVersion
  | statusCode
  | reason
  deriving DecidableEq, Repr

/-- mirrors individual/lib/HTTP.cpp:365-411 -/
structure THttpResponseStatusLineParser where
  httpVersionParser : TUntilParser
  statusCodeParser : TUntilParser
  reasonParser : TUntilParser
  state : EStatusLine
  deriving DecidableEq, Repr

namespace THttpResponseStatusLineParser

/-- mirrors individual/lib/HTTP.cpp:367-372 -/
def make : THttpResponseStatusLineParser := ⟨.make [SP], .make [SP], .make CRLF, .httpVersion⟩

/-- mirrors individual/lib/HTTP.cpp:374-389 -/
def consume (p : THttpResponseStatusLineParser) (c : UInt8) :
    EParseResult × THttpResponseStatusLineParser :=
  match p.state with
  | .httpVersion =>
    match p.httpVersionParser.consume c with
    | (.parsed, q) => (.await, { p with httpVersionParser := q, state := .statusCode })
    | (.await, q) => (.await, { p with httpVersionParser := q })
  | .statusCode =>
    match p.statusCodeParser.consume c with
    | (.parsed, q) => (.await, { p with statusCodeParser := q, state := .reason })
    | (.await, q) => (.await, { p with statusCodeParser := q })
  | .reason =>
    match p.reasonParser.consume c with
    | (.parsed, q) => (.parsed, { p with reasonParser := q })
    | (.await, q) => (.await, { p with reasonParser := q })

/-- mirrors individual/lib/HTTP.cpp:391-397 -/
def parsed (p : THttpResponseStatusLineParser) : THttpResponseStatusLine :=
  ⟨p.httpVersionParser.parsed, p.statusCodeParser.parsed, p.reasonParser.parsed⟩

end THttpResponseStatusLineParser

/-- The `while` loop of `ParseHeader` and what follows it.
mirrors individual/lib/HTTP.cpp:415-423 -/
def parseHeaderLoop : Bytes → TUntilParser → THttpHeader
  | [], key => ⟨key.parsed, []⟩
  | c :: it, key =>
    match key.consume c with
    | (.await, key) => parseHeaderLoop it key
    | (.parsed, key) => ⟨key.parsed, it⟩

/-- mirrors individual/lib/HTTP.cpp:413-424 -/
def parseHeader (header : Bytes) : THttpHeader := parseHeaderLoop header (.make [COLON, SP])

/-- mirrors individual/lib/HTTP.cpp:426-450 -/
structure THttpHeadersParser where
  lineParser : TUntilParser
  parsed_ : List THttpHeader
  deriving DecidableEq, Repr

namespace THttpHeadersParser

def make : THttpHeadersParser := ⟨.make CRLF, []⟩

/-- mirrors individual/lib/HTTP.cpp:432-441 -/
def consume (p : THttpHeadersParser) (c : UInt8) : EParseResult × THttpHeadersParser :=
  match p.lineParser.consume c with
  | (.parsed, q) =>
    if q.parsed = [] then (.parsed, { p with lineParser := q })
    else (.await, ⟨.make CRLF, p.parsed_ ++ [parseHeader q.parsed]⟩)
  | (.await, q) => (.await, { p with lineParser := q })

/-- mirrors individual/lib/HTTP.cpp:443-445 -/
def parsed (p : THttpHeadersParser) : THttpHeaders := .make p.parsed_

end THttpHeadersParser

/-- `std::from_chars` into an `int`. -/
def intFromChars (base : Nat) (s : Bytes) : Except Numeral.Errc Int :=
  fromChars Int32.minValue.toInt Int32.maxValue.toInt base s

/-- mirrors individual/lib/HTTP.cpp:452-468 -/
def dataLength (headers : THttpHeaders) : Int :=
  headers.headers.foldl (fun dataLength header =>
    if header.key = contentLength then
      match intFromChars 10 header.value with
      | .ok v => v
      | .error _ => 0
    else dataLength) 0

/-- mirrors individual/lib/HTTP.cpp:542-549 -/
def isChunked (headers : THttpHeaders) : Bool :=
  match headers.find transferEncoding with
  | none => false
  | some h => decide (ascii "chunked" ∈ h.splitValue)

/-- mirrors individual/lib/HTTP.cpp:632-638 -/
inductive EResponse where
  | responseLine
  | headers
  | data
  | chunkLength
  | chunkData
  deriving DecidableEq, Repr

/-- mirrors individual/lib/HTTP.cpp:553-642 -/
structure THttpResponseParser where
  responseStatusLineParser : THttpResponseStatusLineParser
  headersParser : THttpHeadersParser
  dataParser : TNParser
  chunked : Bool
  chunkLengthParser : TUntilParser
  chunkParser : TNParser
  chunkedData : Bytes
  state : EResponse
  deriving DecidableEq, Repr

namespace THttpResponseParser

/-- mirrors individual/lib/HTTP.cpp:555-558 -/
def make : THttpResponseParser := ⟨.make, .make, .make, false, .make CRLF, .make, [], .responseLine⟩

/-- The head has been read.
mirrors individual/lib/HTTP.cpp:566-578 -/
def endHead (p : THttpResponseParser) : Except Fault (EParseResult × THttpResponseParser) :=
  let dataLength := dataLength p.headersParser.parsed
  let isChunked := isChunked p.headersParser.parsed
  if dataLength = 0 ∧ isChunked = false then return (.parsed, p)
  else if isChunked = false then do
    let dataParser ← TNParser.setN dataLength
    return (.await, { p with state := .data, dataParser := dataParser })
  else return (.await, { p with state := .chunkLength, chunked := true })

/-- The line of a chunk's length has been read. After a failed `from_chars`
`length` is not set.
mirrors individual/lib/HTTP.cpp:586-599 -/
def endChunkLength (p : THttpResponseParser) : Except Fault (EParseResult × THttpResponseParser) :=
  match intFromChars 16 p.chunkLengthParser.parsed with
  | .error _ => throw .uninitialised
  | .ok length =>
    if length = 0 then return (.parsed, p)
    else if Int32.maxValue.toInt < length + 2 then throw .overflow
    else do
      let chunkParser ← TNParser.setN (length + 2)
      return (.await, { p with
        state := .chunkData, chunkParser := chunkParser, chunkLengthParser := p.chunkLengthParser.reset })

/-- mirrors individual/lib/HTTP.cpp:560-608 -/
def consume (p : THttpResponseParser) (c : UInt8) : Except Fault (EParseResult × THttpResponseParser) :=
  match p.state with
  | .responseLine =>
    match p.responseStatusLineParser.consume c with
    | (.parsed, q) => return (.await, { p with responseStatusLineParser := q, state := .headers })
    | (.await, q) => return (.await, { p with responseStatusLineParser := q })
  | .headers =>
    match p.headersParser.consume c with
    | (.parsed, q) => endHead { p with headersParser := q }
    | (.await, q) => return (.await, { p with headersParser := q })
  | .data => do
    let (r, q) ← p.dataParser.consume c
    return (r, { p with dataParser := q })
  | .chunkLength =>
    match p.chunkLengthParser.consume c with
    | (.parsed, q) => endChunkLength { p with chunkLengthParser := q }
    | (.await, q) => return (.await, { p with chunkLengthParser := q })
  | .chunkData => do
    match ← p.chunkParser.consume c with
    | (.parsed, q) => return (.await, { p with
        state := .chunkLength, chunkParser := q, chunkedData := p.chunkedData ++ q.parsed })
    | (.await, q) => return (.await, { p with chunkParser := q })

/-- mirrors individual/lib/HTTP.cpp:610-621 -/
def parsed (p : THttpResponseParser) : THttpResponse :=
  let ret : THttpResponse := ⟨p.responseStatusLineParser.parsed, p.headersParser.parsed,
    if p.chunked then p.chunkedData else p.dataParser.parsed⟩
  if p.chunked then
    let ret := ret.updateContentLength
    { ret with headers := ret.headers.remove transferEncoding }
  else ret

end THttpResponseParser

/-! ## Fields -/

theorem endsWith_iff (s t : Bytes) : endsWith s t = true ↔ t <:+ s := by
  unfold endsWith
  split
  · rename_i h
    exact iff_of_false (by simp) fun hs => by have := hs.length_le; omega
  · rename_i h
    rw [List.all_eq_true, List.suffix_iff_getElem?]
    constructor
    · intro hall
      refine ⟨by omega, fun i hi => ?_⟩
      have := hall (t.length - 1 - i) (List.mem_range.mpr (by omega))
      rw [beq_iff_eq, show s.length - 1 - (t.length - 1 - i) = i + s.length - t.length by omega,
        show t.length - 1 - (t.length - 1 - i) = i by omega, List.getElem?_eq_getElem hi] at this
      exact this
    · rintro ⟨-, hget⟩ i hi
      rw [List.mem_range] at hi
      have := hget (t.length - 1 - i) (by omega)
      rw [show t.length - 1 - i + s.length - t.length = s.length - 1 - i by omega] at this
      rw [beq_iff_eq, this, List.getElem?_eq_getElem]

theorem TUntilParser.awaits {d f : Bytes} (hf : Fresh d f) : ∀ (u s t : Bytes), t ≠ [] →
    f ++ d = s ++ (u ++ t) →
    Awaits (ε := Fault) (total TUntilParser.consume) ⟨d, s⟩ u ⟨d, s ++ u⟩ := by
  intro u
  induction u with
  | nil => intro s t _ _; rw [List.append_nil]; exact .nil _
  | cons c u ih =>
    intro s t ht he
    have hrest := ih (s ++ [c]) t ht (by rw [he]; simp)
    rw [List.append_assoc, List.singleton_append] at hrest
    refine .cons ?_ hrest
    have hne : ¬ endsWith (s ++ [c]) d = true := by
      rw [endsWith_iff]
      exact hf.not_suffix (t := u ++ t) (by simp [ht]) (by rw [he]; simp)
    rw [total_eq_ok]
    simp only [TUntilParser.consume, if_neg hne]

/-- A field up to its delimiter. -/
theorem TUntilParser.completes {d f : Bytes} (hd : d ≠ []) (hf : Fresh d f) :
    Completes (ε := Fault) (total TUntilParser.consume) (.make d) (f ++ d) ⟨d, f⟩ := by
  have hne : f ++ d ≠ [] := by simp [hd]
  refine ⟨(f ++ d).dropLast, (f ++ d).getLast hne, ⟨d, (f ++ d).dropLast⟩,
    (List.dropLast_append_getLast hne).symm, ?_, ?_⟩
  · have := TUntilParser.awaits hf (f ++ d).dropLast [] [(f ++ d).getLast hne] (by simp)
      (by rw [List.dropLast_append_getLast, List.nil_append])
    rwa [List.nil_append] at this
  · have hend : endsWith (f ++ d) d = true := (endsWith_iff _ _).mpr (List.suffix_append f d)
    rw [total_eq_ok]
    simp only [TUntilParser.consume, List.dropLast_append_getLast, if_pos hend]
    rw [List.length_append, Nat.add_sub_cancel, List.take_left' rfl]

theorem TNParser.consume_pos {n : Nat} (hn : 0 < n) (hmax : n < 2 ^ 31) (s : Bytes) (c : UInt8) :
    TNParser.consume ⟨some n, s⟩ c =
      .ok (if n = 1 then .parsed else .await, ⟨some (n - 1 : Nat), s ++ [c]⟩) := by
  have hmin : ¬ (n : Int) = Int32.minValue.toInt := by
    rw [int32_min]
    omega
  have hpred : (n : Int) - 1 = (n - 1 : Nat) := by omega
  simp only [TNParser.consume, if_neg hmin, hpred]
  by_cases h1 : n = 1
  · subst h1
    rfl
  · have h0 : ¬ ((n - 1 : Nat) : Int) = 0 := by omega
    rw [if_neg h0, if_neg h1]
    rfl

theorem TNParser.awaits : ∀ (u s : Bytes) (n : Nat), u.length < n → n < 2 ^ 31 →
    Awaits TNParser.consume ⟨some n, s⟩ u ⟨some (n - u.length : Nat), s ++ u⟩ := by
  intro u
  induction u with
  | nil => intro s n _ _; rw [List.append_nil]; exact .nil _
  | cons c u ih =>
    intro s n hn hmax
    rw [List.length_cons] at hn
    have hrest := ih (s ++ [c]) (n - 1) (by omega) (by omega)
    rw [List.append_assoc, List.singleton_append, show n - 1 - u.length = n - (u.length + 1) by omega]
      at hrest
    refine .cons ?_ hrest
    rw [consume_pos (by omega) hmax, if_neg (by omega)]

/-- So many bytes. -/
theorem TNParser.completes {s : Bytes} (hs : s ≠ []) (hmax : s.length < 2 ^ 31) :
    Completes TNParser.consume ⟨some s.length, []⟩ s ⟨some 0, s⟩ := by
  have hpos := List.length_pos_of_ne_nil hs
  have hrun := TNParser.awaits s.dropLast [] s.length (by rw [List.length_dropLast]; omega) hmax
  rw [List.nil_append, List.length_dropLast, show s.length - (s.length - 1) = 1 by omega] at hrun
  refine ⟨s.dropLast, s.getLast hs, _, (List.dropLast_append_getLast hs).symm, hrun, ?_⟩
  rw [consume_pos Nat.one_pos (by omega), List.dropLast_append_getLast]
  rfl

/-! ## Phases -/

namespace THttpResponseStatusLineParser

theorem hosts_httpVersion (a b : TUntilParser) :
    Hosts (ε := Fault) (total TUntilParser.consume) (total consume)
      (fun q => ⟨q, a, b, .httpVersion⟩) (fun q => .ok (.await, ⟨q, a, b, .statusCode⟩)) :=
  .of_total (fun h => by simp only [consume, h]) (fun h => by simp only [consume, h])

theorem hosts_statusCode (a b : TUntilParser) :
    Hosts (ε := Fault) (total TUntilParser.consume) (total consume)
      (fun q => ⟨a, q, b, .statusCode⟩) (fun q => .ok (.await, ⟨a, q, b, .reason⟩)) :=
  .of_total (fun h => by simp only [consume, h]) (fun h => by simp only [consume, h])

theorem hosts_reason (a b : TUntilParser) :
    Hosts (ε := Fault) (total TUntilParser.consume) (total consume)
      (fun q => ⟨a, b, q, .reason⟩) (fun q => .ok (.parsed, ⟨a, b, q, .reason⟩)) :=
  .of_total (fun h => by simp only [consume, h]) (fun h => by simp only [consume, h])

end THttpResponseStatusLineParser

open THttpHeadersParser in
/-- A header line, or the empty one. -/
theorem THttpHeadersParser.hosts_line (acc : List THttpHeader) :
    Hosts (ε := Fault) (total TUntilParser.consume) (total consume) (fun q => ⟨q, acc⟩)
      (fun q => .ok (if q.parsed = [] then (.parsed, ⟨q, acc⟩)
        else (.await, ⟨.make CRLF, acc ++ [parseHeader q.parsed]⟩))) :=
  .of_total (fun h => by simp only [consume, h]) (fun h => by simp only [consume, h])

namespace THttpResponseParser

variable (p : THttpResponseParser)

theorem hosts_responseLine : Hosts (total THttpResponseStatusLineParser.consume) consume
    (fun q => { p with responseStatusLineParser := q, state := .responseLine })
    (fun q => .ok (.await, { p with responseStatusLineParser := q, state := .headers })) where
  await h := by rw [total_eq_ok] at h; simp only [consume, h]; rfl
  parsed h := by rw [total_eq_ok] at h; simp only [consume, h]; rfl
  error h := by cases h

theorem hosts_headers : Hosts (total THttpHeadersParser.consume) consume
    (fun q => { p with headersParser := q, state := .headers })
    (fun q => endHead { p with headersParser := q, state := .headers }) where
  await h := by rw [total_eq_ok] at h; simp only [consume, h]; rfl
  parsed h := by rw [total_eq_ok] at h; simp only [consume, h]
  error h := by cases h

theorem hosts_data : Hosts TNParser.consume consume
    (fun q => { p with dataParser := q, state := .data })
    (fun q => .ok (.parsed, { p with dataParser := q, state := .data })) where
  await h := by simp only [consume, h]; rfl
  parsed h := by simp only [consume, h]; rfl
  error h := by simp only [consume, h]; rfl

theorem hosts_chunkLength : Hosts (total TUntilParser.consume) consume
    (fun q => { p with chunkLengthParser := q, state := .chunkLength })
    (fun q => endChunkLength { p with chunkLengthParser := q, state := .chunkLength }) where
  await h := by rw [total_eq_ok] at h; simp only [consume, h]; rfl
  parsed h := by rw [total_eq_ok] at h; simp only [consume, h]
  error h := by cases h

theorem hosts_chunkData : Hosts TNParser.consume consume
    (fun q => { p with chunkParser := q, state := .chunkData })
    (fun q => .ok (.await, { p with
      chunkParser := q, chunkedData := p.chunkedData ++ q.parsed, state := .chunkLength })) where
  await h := by simp only [consume, h]; rfl
  parsed h := by simp only [consume, h]; rfl
  error h := by simp only [consume, h]; rfl

end THttpResponseParser

/-! ## The head -/

/-- No field of the status line contains its delimiter. -/
structure THttpResponseStatusLine.Fine (l : THttpResponseStatusLine) : Prop where
  httpVersion : SP ∉ l.httpVersion
  statusCode : SP ∉ l.statusCode
  reason : ¬ CRLF <:+: l.reason

/-- Neither field of the header contains its delimiter, nor the end of the line. -/
structure THttpHeader.Fine (h : THttpHeader) : Prop where
  key : ¬ [COLON, SP] <:+: h.key
  keyLine : ¬ CRLF <:+: h.key
  value : ¬ CRLF <:+: h.value

theorem fresh_crlf {f : Bytes} (h : ¬ CRLF <:+: f) : Fresh CRLF f := fresh_pair (by decide) h

theorem crlf_ne_nil : CRLF ≠ [] := List.cons_ne_nil _ _

open THttpResponseStatusLineParser in
theorem statusLine_completes {l : THttpResponseStatusLine} (hl : l.Fine) :
    Completes (ε := Fault) (total consume) make (l.serialize ++ CRLF)
      ⟨⟨[SP], l.httpVersion⟩, ⟨[SP], l.statusCode⟩, ⟨CRLF, l.reason⟩, .reason⟩ := by
  have hne : [SP] ≠ ([] : Bytes) := List.cons_ne_nil _ _
  have h1 := (hosts_httpVersion (.make [SP]) (.make CRLF)).next
    (TUntilParser.completes hne (fresh_singleton hl.httpVersion)) rfl
  have h2 := (hosts_statusCode ⟨[SP], l.httpVersion⟩ (.make CRLF)).next
    (TUntilParser.completes hne (fresh_singleton hl.statusCode)) rfl
  have h3 := (hosts_reason ⟨[SP], l.httpVersion⟩ ⟨[SP], l.statusCode⟩).last
    (TUntilParser.completes crlf_ne_nil (fresh_crlf hl.reason)) rfl
  have htext : l.serialize ++ CRLF =
      (l.httpVersion ++ [SP]) ++ ((l.statusCode ++ [SP]) ++ (l.reason ++ CRLF)) := by
    simp only [THttpResponseStatusLine.serialize, List.append_assoc]
  rw [htext]
  exact h1.completes (h2.completes h3)

/-- The key is what the parser takes, the value what is left. -/
theorem parseHeaderLoop_completes {key key' : TUntilParser} {s t : Bytes}
    (h : Completes (ε := Fault) (total TUntilParser.consume) key s key') :
    parseHeaderLoop (s ++ t) key = ⟨key'.parsed, t⟩ := by
  obtain ⟨u, c, r, rfl, hu, hc⟩ := h
  rw [total_eq_ok] at hc
  induction hu with
  | nil => simp only [List.nil_append, List.cons_append, parseHeaderLoop, hc]
  | cons hc' _ ih =>
    rw [total_eq_ok] at hc'
    simp only [List.cons_append, parseHeaderLoop, hc']
    exact ih hc

theorem parseHeader_serialize {h : THttpHeader} (hf : h.Fine) : parseHeader h.serialize = h := by
  have hne : [COLON, SP] ≠ ([] : Bytes) := List.cons_ne_nil _ _
  exact parseHeaderLoop_completes (TUntilParser.completes hne (fresh_pair (by decide) hf.key))

/-- No line of a header ends early. -/
theorem THttpHeader.Fine.line {h : THttpHeader} (hf : h.Fine) : ¬ CRLF <:+: h.serialize := by
  rw [THttpHeader.serialize, List.append_assoc, List.infix_append_iff_ne_nil]
  rintro (hk | hv | ⟨a, b, ha, hb, hab, -, hbv⟩)
  · exact hf.keyLine hk
  · rw [List.cons_append, List.cons_append, List.nil_append, List.infix_cons_iff,
      List.infix_cons_iff] at hv
    rcases hv with hv | hv | hv
    · exact absurd (List.cons_prefix_cons.mp hv).1 (by decide)
    · exact absurd (List.cons_prefix_cons.mp hv).1 (by decide)
    · exact hf.value hv
  · -- the line feed would be the colon
    obtain ⟨x, a, rfl⟩ := List.exists_cons_of_ne_nil ha
    obtain ⟨y, b, rfl⟩ := List.exists_cons_of_ne_nil hb
    obtain rfl : a = [] := by
      have := congrArg List.length hab
      simp only [CRLF, List.length_append, List.length_cons, List.length_nil] at this
      exact List.eq_nil_of_length_eq_zero (by omega)
    simp only [CRLF, List.cons_append, List.nil_append, List.cons.injEq] at hab
    have := (List.cons_prefix_cons.mp hbv).1
    rw [← hab.2.1] at this
    exact absurd this (by decide)

theorem THttpHeader.serialize_ne_nil (h : THttpHeader) : h.serialize ≠ [] := by
  simp [THttpHeader.serialize]

/-- The lines of a head and the empty line, as they are read. -/
theorem lines_completes : ∀ (lines : List Bytes) (acc : List THttpHeader),
    (∀ x ∈ lines, x ≠ [] ∧ ¬ CRLF <:+: x) →
    Completes (ε := Fault) (total THttpHeadersParser.consume) ⟨.make CRLF, acc⟩
      ((lines.flatMap fun x => x ++ CRLF) ++ CRLF) ⟨⟨CRLF, []⟩, acc ++ lines.map parseHeader⟩
  | [], acc, _ => by
    rw [List.map_nil, List.append_nil]
    exact (THttpHeadersParser.hosts_line acc).last
      (TUntilParser.completes crlf_ne_nil (fresh_crlf (f := []) (by decide))) rfl
  | x :: lines, acc, hl => by
    obtain ⟨⟨hne, hx⟩, hlines⟩ := List.forall_mem_cons.mp hl
    have hline : Awaits (ε := Fault) (total THttpHeadersParser.consume) ⟨.make CRLF, acc⟩ (x ++ CRLF)
        ⟨.make CRLF, acc ++ [parseHeader x]⟩ := by
      refine (THttpHeadersParser.hosts_line acc).next
        (TUntilParser.completes crlf_ne_nil (fresh_crlf hx)) ?_
      rw [if_neg hne]
    have hall := hline.completes (lines_completes lines (acc ++ [parseHeader x]) hlines)
    simpa only [List.flatMap_cons, List.append_assoc, List.singleton_append, List.map_cons] using hall

/-- Headers whose fields do not contain their delimiters. -/
theorem headers_completes (headers acc : List THttpHeader) (hf : ∀ h ∈ headers, h.Fine) :
    Completes (ε := Fault) (total THttpHeadersParser.consume) ⟨.make CRLF, acc⟩
      ((headers.flatMap fun h => h.serialize ++ CRLF) ++ CRLF) ⟨⟨CRLF, []⟩, acc ++ headers⟩ := by
  have hlines : ∀ x ∈ headers.map THttpHeader.serialize, x ≠ [] ∧ ¬ CRLF <:+: x :=
    List.forall_mem_map.mpr fun h hh => ⟨h.serialize_ne_nil, (hf h hh).line⟩
  have hrun := lines_completes _ acc hlines
  have hparsed : headers.map (parseHeader ∘ THttpHeader.serialize) = headers :=
    (List.map_congr_left fun h hh => parseHeader_serialize (hf h hh)).trans (List.map_id headers)
  rwa [List.flatMap_map, List.map_map, hparsed] at hrun

/-- The parser behind a status line. -/
def THttpResponseParser.behindLine (l : THttpResponseStatusLine) : THttpResponseParser :=
  ⟨⟨⟨[SP], l.httpVersion⟩, ⟨[SP], l.statusCode⟩, ⟨CRLF, l.reason⟩, .reason⟩, .make, .make, false,
    .make CRLF, .make, [], .headers⟩

open THttpResponseParser in
theorem line_awaits {l : THttpResponseStatusLine} (hl : l.Fine) :
    Awaits consume make (l.serialize ++ CRLF) (behindLine l) :=
  (hosts_responseLine make).next (statusLine_completes hl) rfl

end NetworksLab.L3.Http
